import Ralix.Dtb.Number
import Ralix.Drivers.Framebuffer
import Ralix.Lib.Writes

/-!
# The console shows a grid of characters

What the console is for: a grid of characters with a cursor, which wraps after the last column and
scrolls at the bottom (`Grid`). `console_refines` shows that the console draws it. Whatever is
written, the cursor stays in the grid, every access stays in the frame buffer, and the pixels are those
of the grid, with the background around it.

A picture is a map from pixels to colors, and `Shows` says that video memory holds it. Drawing is a list
of writes to pixels, so the last write to a pixel counts. Scrolling moves the picture as a whole, the
rows below the grid too. That these come up as the background is why they are part of the invariant.
-/

namespace Ralix.Drivers

open Lib Gfx

/-! ## Pixels in memory -/

/-- Memory holds the pixel at an offset. -/
def Vram.Holds (mem : Vram) (offset : ℕ) (color : UInt32) : Prop :=
  ∀ k < 4, mem (offset + k) = pixelByte color k

/-- The value of a byte of a pixel. -/
theorem pixelByte_toNat (color : UInt32) {k : ℕ} (hk : k < 4) :
    (pixelByte color k).toNat = color.toNat / 2^(8 * k) % 2^8 := by
  rw [pixelByte, UInt32.toNat_toUInt8, UInt32.toNat_shiftRight, UInt32.toNat_ofNat',
    Nat.shiftRight_eq_div_pow, Nat.mod_eq_of_lt (show 8 * k < 2^32 by omega),
    Nat.mod_eq_of_lt (show 8 * k < 32 by omega)]

/-- The pixel that memory holds is read back. -/
theorem Vram.Holds.load_eq {mem : Vram} {offset : ℕ} {color : UInt32} (h : mem.Holds offset color) :
    mem.load offset = color := by
  have hlt := color.toNat_lt
  have h0 : mem offset = pixelByte color 0 := h 0 (by decide)
  rw [← UInt32.toNat_inj, Vram.load, Dtb.be32_value, h 3 (by decide), h 2 (by decide),
    h 1 (by decide), h0, pixelByte_toNat color (by decide), pixelByte_toNat color (by decide),
    pixelByte_toNat color (by decide), pixelByte_toNat color (by decide)]
  omega

/-- Memory holds the pixel that is read from it. -/
theorem Vram.holds_load (mem : Vram) (offset : ℕ) : mem.Holds offset (mem.load offset) := by
  have h0 := (mem offset).toNat_lt
  have h1 := (mem (offset + 1)).toNat_lt
  have h2 := (mem (offset + 2)).toNat_lt
  have hvalue : (mem.load offset).toNat = (mem (offset + 3)).toNat * 2^24 +
      (mem (offset + 2)).toNat * 2^16 + (mem (offset + 1)).toNat * 2^8 + (mem offset).toNat :=
    Dtb.be32_value _ _ _ _
  intro k hk
  have h3 := (mem (offset + 3)).toNat_lt
  rw [← UInt8.toNat_inj, pixelByte_toNat _ hk, hvalue]
  obtain rfl | rfl | rfl | rfl : k = 0 ∨ k = 1 ∨ k = 2 ∨ k = 3 := by omega
  · show (mem offset).toNat = _
    omega
  · omega
  · omega
  · omega

/-- A picture: the color of the pixel at `(x, y)`. -/
abbrev Picture := ℕ × ℕ → UInt32

namespace Framebuffer

/-- The offset of the pixel at `(x, y)`. -/
def offset (fb : Framebuffer) (x y : ℕ) : ℕ := y * fb.pitch.toNat + x * 4

/-- The bytes of the frame buffer. -/
def bytes (fb : Framebuffer) : ℕ := fb.pitch.toNat * fb.height.toNat

/-- A geometry: there are pixels, a row has room for them, and 32 bits are enough for the offsets. -/
structure Geometry (fb : Framebuffer) : Prop where
  width_pos : 1 ≤ fb.width.toNat
  height_pos : 1 ≤ fb.height.toNat
  width_le : fb.width.toNat * 4 ≤ fb.pitch.toNat
  bytes_lt : fb.bytes < 2^32

/-- Memory holds the picture, as far as it is visible. -/
def Shows (fb : Framebuffer) (mem : Vram) (f : Picture) : Prop :=
  ∀ x y, x < fb.width.toNat → y < fb.height.toNat → mem.Holds (fb.offset x y) (f (x, y))

variable {fb : Framebuffer}

/-- A row of pixels ends before the next row begins. -/
theorem Geometry.offset_le (h : fb.Geometry) {x y y' : ℕ} (hx : x < fb.width.toNat) (hy : y < y') :
    fb.offset x y + 4 ≤ y' * fb.pitch.toNat := by
  have hwidth := h.width_le
  calc fb.offset x y + 4 ≤ (y + 1) * fb.pitch.toNat := by
        unfold offset
        rw [Nat.add_mul]
        omega
    _ ≤ y' * fb.pitch.toNat := Nat.mul_le_mul_right _ hy

/-- A pixel lies in the frame buffer. -/
theorem Geometry.offset_lt (h : fb.Geometry) {x y : ℕ} (hx : x < fb.width.toNat)
    (hy : y < fb.height.toNat) : fb.offset x y + 4 ≤ fb.bytes := by
  have hle := h.offset_le hx hy
  rwa [Nat.mul_comm] at hle

/-- Different pixels lie apart. -/
theorem Geometry.apart (h : fb.Geometry) {x y x' y' : ℕ} (hx : x < fb.width.toNat)
    (hx' : x' < fb.width.toNat) (hne : (x, y) ≠ (x', y')) :
    fb.offset x y + 4 ≤ fb.offset x' y' ∨ fb.offset x' y' + 4 ≤ fb.offset x y := by
  rcases Nat.lt_trichotomy y y' with hlt | rfl | hlt
  · have hle := h.offset_le hx hlt
    unfold offset at hle ⊢
    omega
  · have hxx : x ≠ x' := fun e => hne (by rw [e])
    unfold offset
    omega
  · have hle := h.offset_le hx' hlt
    unfold offset at hle ⊢
    omega

/-- `put_pixel` computes the offset of the pixel. -/
theorem Geometry.putPixel_eq (h : fb.Geometry) {x y : ℕ} (hx : x < fb.width.toNat)
    (hy : y < fb.height.toNat) (color : UInt32) :
    fb.putPixel (UInt32.ofNat x) (UInt32.ofNat y) color = .store (fb.offset x y) color := by
  have hle := h.offset_lt hx hy
  have hlt := h.bytes_lt
  have hxlt := fb.width.toNat_lt
  have hylt := fb.height.toNat_lt
  have hy' : y * fb.pitch.toNat < 2^32 := by
    unfold offset at hle
    omega
  have hoffset : ((UInt32.ofNat y * fb.pitch) + (UInt32.ofNat x * 4)).toNat = fb.offset x y := by
    rw [UInt32.toNat_add, UInt32.toNat_mul, UInt32.toNat_mul,
      UInt32.toNat_ofNat_of_lt' (show y < 2^32 by omega),
      UInt32.toNat_ofNat_of_lt' (show x < 2^32 by omega)]
    show (y * fb.pitch.toNat % 2^32 + x * 4 % 2^32) % 2^32 = _
    unfold offset at hle ⊢
    omega
  rw [putPixel, hoffset]

/-! ## Drawing -/

/-- The accesses that write some pixels. -/
def stores (fb : Framebuffer) (ws : List ((ℕ × ℕ) × UInt32)) : List Access :=
  ws.map fun w => .store (fb.offset w.1.1 w.1.2) w.2

/-- The writes are to pixels of the frame buffer. -/
def Visible (fb : Framebuffer) (ws : List ((ℕ × ℕ) × UInt32)) : Prop :=
  ∀ w ∈ ws, w.1.1 < fb.width.toNat ∧ w.1.2 < fb.height.toNat

/-- The memory after one access and then others. -/
theorem run_cons (mem : Vram) (a : Access) (as : List Access) :
    Access.run mem (a :: as) = Access.run (a.apply mem) as := rfl

/-- The memory after some accesses and then others. -/
theorem run_append (mem : Vram) (as as' : List Access) :
    Access.run mem (as ++ as') = Access.run (Access.run mem as) as' := List.foldl_append

/-- A pixel that is written changes in the picture, and no other one does. -/
theorem Shows.store (h : fb.Geometry) {mem : Vram} {f : Picture} (hshows : fb.Shows mem f) {x y : ℕ}
    (hx : x < fb.width.toNat) (color : UInt32) :
    fb.Shows ((Access.store (fb.offset x y) color).apply mem)
      (Function.update f (x, y) color) := by
  intro x' y' hx' hy' k hk
  show (if fb.offset x y ≤ fb.offset x' y' + k ∧ fb.offset x' y' + k < fb.offset x y + 4 then _
    else _) = _
  by_cases he : (x', y') = (x, y)
  · cases he
    rw [Function.update_self, if_pos (by omega), Nat.add_sub_cancel_left]
  · have hapart := h.apart hx' hx he
    rw [Function.update_of_ne he, if_neg (by omega)]
    exact hshows x' y' hx' hy' k hk

/-- Writes to pixels are writes to the picture. -/
theorem Shows.stores (h : fb.Geometry) {mem : Vram} {f : Picture} (hshows : fb.Shows mem f)
    {ws : List ((ℕ × ℕ) × UInt32)} (hws : fb.Visible ws) :
    fb.Shows (Access.run mem (fb.stores ws)) (applyWrites f ws) := by
  induction ws generalizing mem f with
  | nil => exact hshows
  | cons w ws ih =>
    obtain ⟨hw, hws⟩ := List.forall_mem_cons.mp hws
    exact ih (hshows.store h hw.1 w.2) hws

/-- Writes to pixels stay in the frame buffer. -/
theorem Visible.inside (h : fb.Geometry) {ws : List ((ℕ × ℕ) × UInt32)} (hws : fb.Visible ws) :
    ∀ a ∈ fb.stores ws, ∀ o, a.Writes o ∨ a.Reads o → o < fb.bytes := by
  intro a ha o ho
  obtain ⟨w, hw, rfl⟩ := List.mem_map.mp ha
  obtain ⟨hx, hy⟩ := hws w hw
  have hle := h.offset_lt hx hy
  have hwrites : fb.offset w.1.1 w.1.2 ≤ o ∧ o < fb.offset w.1.1 w.1.2 + 4 := ho.resolve_right id
  omega

/-- The pixels of some rows, all in one color. -/
def rowWrites (fb : Framebuffer) (ys : List ℕ) (color : UInt32) : List ((ℕ × ℕ) × UInt32) :=
  ys.flatMap fun y => (List.range fb.width.toNat).map fun x => ((x, y), color)

/-- A pixel of the rows. -/
theorem mem_rowWrites {ys : List ℕ} {color : UInt32} {w : (ℕ × ℕ) × UInt32} :
    w ∈ fb.rowWrites ys color ↔ w.1.1 < fb.width.toNat ∧ w.1.2 ∈ ys ∧ w.2 = color := by
  obtain ⟨⟨x, y⟩, v⟩ := w
  simp only [rowWrites, List.mem_flatMap, List.mem_map, List.mem_range, Prod.mk.injEq]
  constructor
  · rintro ⟨y', hy', x', hx', ⟨rfl, rfl⟩, rfl⟩
    exact ⟨hx', hy', rfl⟩
  · rintro ⟨hx, hy, rfl⟩
    exact ⟨y, hy, x, hx, ⟨rfl, rfl⟩, rfl⟩

/-- The pixels of the rows take the color, and no others. -/
theorem applyWrites_rowWrites (f : Picture) {ys : List ℕ} (color : UInt32) {x y : ℕ}
    (hx : x < fb.width.toNat) :
    applyWrites f (fb.rowWrites ys color) (x, y) = if y ∈ ys then color else f (x, y) := by
  split
  · rename_i hy
    have hmem : (x, y) ∈ (fb.rowWrites ys color).map Prod.fst :=
      List.mem_map.mpr ⟨((x, y), color), mem_rowWrites.mpr ⟨hx, hy, rfl⟩, rfl⟩
    exact (mem_rowWrites.mp (applyWrites_of_mem hmem)).2.2
  · rename_i hy
    refine applyWrites_of_notMem fun hmem => hy ?_
    obtain ⟨w, hw, he⟩ := List.mem_map.mp hmem
    have hwy := (mem_rowWrites.mp hw).2.1
    rwa [he] at hwy

/-- Pixels of rows of the frame buffer are visible. -/
theorem visible_rowWrites {ys : List ℕ} (hys : ∀ y ∈ ys, y < fb.height.toNat) (color : UInt32) :
    fb.Visible (fb.rowWrites ys color) := by
  intro w hw
  obtain ⟨hx, hy, -⟩ := mem_rowWrites.mp hw
  exact ⟨hx, hys _ hy⟩

/-- A picture that agrees on the visible pixels is shown as well. -/
theorem Shows.congr {mem : Vram} {f g : Picture} (h : fb.Shows mem f)
    (hfg : ∀ x y, x < fb.width.toNat → y < fb.height.toNat → f (x, y) = g (x, y)) :
    fb.Shows mem g := by
  intro x y hx hy
  rw [← hfg x y hx hy]
  exact h x y hx hy

/-- `clear` writes all pixels. -/
theorem Geometry.clear_eq (h : fb.Geometry) (color : UInt32) :
    fb.clear color = fb.stores (fb.rowWrites (List.range fb.height.toNat) color) := by
  rw [clear, Framebuffer.stores, rowWrites, List.map_flatMap]
  refine List.flatMap_congr fun y hy => ?_
  rw [List.map_map]
  refine List.map_congr_left fun x hx => ?_
  exact h.putPixel_eq (List.mem_range.mp hx) (List.mem_range.mp hy) color

/-- The rows of the frame buffer. -/
theorem visible_range (color : UInt32) :
    fb.Visible (fb.rowWrites (List.range fb.height.toNat) color) :=
  visible_rowWrites (fun _ hy => List.mem_range.mp hy) color

/-- After `clear`, the frame buffer has one color, whatever was there before. -/
theorem Geometry.shows_clear (h : fb.Geometry) (mem : Vram) (color : UInt32) :
    fb.Shows (Access.run mem (fb.clear color)) fun _ => color := by
  have hbefore : fb.Shows mem fun p => mem.load (fb.offset p.1 p.2) :=
    fun x y _ _ => mem.holds_load (fb.offset x y)
  rw [h.clear_eq]
  refine (hbefore.stores h (visible_range color)).congr fun x y hx hy => ?_
  rw [applyWrites_rowWrites _ color hx, if_pos (List.mem_range.mpr hy)]

/-! ## Characters -/

end Framebuffer

/-- The color of a pixel of a character. -/
def glyphColor (c : UInt8) (fg bg : UInt32) (x y : ℕ) : UInt32 :=
  if ((glyph c).getD (y / 2) 0 >>> UInt8.ofNat (7 - x)) &&& 1 ≠ 0 then fg else bg

namespace Framebuffer

variable {fb : Framebuffer}

/-- The pixels of a character, as far as they are visible. -/
def charWrites (fb : Framebuffer) (x y : ℕ) (c : UInt8) (fg bg : UInt32) :
    List ((ℕ × ℕ) × UInt32) :=
  (glyph c).zipIdx.flatMap fun (bits, row) =>
    (List.range 2).flatMap fun dy =>
      if y + row * 2 + dy ≥ fb.height.toNat then []
      else
        (List.range 8).flatMap fun col =>
          if x + col ≥ fb.width.toNat then []
          else [((x + col, y + row * 2 + dy),
            if (bits >>> UInt8.ofNat (7 - col)) &&& 1 ≠ 0 then fg else bg)]

/-- A pixel of the character. -/
theorem mem_charWrites {x y : ℕ} {c : UInt8} {fg bg : UInt32} {w : (ℕ × ℕ) × UInt32} :
    w ∈ fb.charWrites x y c fg bg ↔ (x ≤ w.1.1 ∧ w.1.1 < x + 8 ∧ w.1.1 < fb.width.toNat) ∧
      (y ≤ w.1.2 ∧ w.1.2 < y + 16 ∧ w.1.2 < fb.height.toNat) ∧
        w.2 = glyphColor c fg bg (w.1.1 - x) (w.1.2 - y) := by
  obtain ⟨⟨px, py⟩, v⟩ := w
  have hlen := length_glyph c
  simp only [charWrites, List.mem_flatMap, Prod.exists, List.mem_range, List.mem_zipIdx_iff_getElem?]
  constructor
  · rintro ⟨bits, row, hrow, dy, hdy, hw⟩
    split at hw
    · cases hw
    obtain ⟨col, hcol, hw⟩ := List.mem_flatMap.mp hw
    split at hw
    · cases hw
    cases List.mem_singleton.mp hw
    have hcol' := List.mem_range.mp hcol
    obtain ⟨hlt, hbits⟩ := List.getElem?_eq_some_iff.mp hrow
    refine ⟨by omega, by omega, ?_⟩
    rw [glyphColor, show (y + row * 2 + dy - y) / 2 = row by omega, Nat.add_sub_cancel_left,
      List.getD_eq_getElem _ _ hlt, hbits]
  · rintro ⟨⟨hx, hx8, hxw⟩, ⟨hy, hy16, hyh⟩, rfl⟩
    have hlt : (py - y) / 2 < (glyph c).length := by omega
    refine ⟨(glyph c)[(py - y) / 2], (py - y) / 2, List.getElem?_eq_getElem hlt, (py - y) % 2,
      Nat.mod_lt _ (by decide), ?_⟩
    rw [show y + (py - y) / 2 * 2 + (py - y) % 2 = py by omega, if_neg (by omega)]
    refine List.mem_flatMap.mpr ⟨px - x, List.mem_range.mpr (by omega), ?_⟩
    rw [show x + (px - x) = px by omega, if_neg (by omega)]
    refine List.mem_singleton.mpr ?_
    rw [glyphColor, List.getD_eq_getElem _ _ hlt]

/-- The pixels of a character are visible. -/
theorem visible_charWrites (x y : ℕ) (c : UInt8) (fg bg : UInt32) :
    fb.Visible (fb.charWrites x y c fg bg) := by
  intro w hw
  obtain ⟨⟨-, -, hx⟩, ⟨-, -, hy⟩, -⟩ := mem_charWrites.mp hw
  exact ⟨hx, hy⟩

/-- The pixels of the character take its colors, and no others change. -/
theorem applyWrites_charWrites (f : Picture) {x y : ℕ} {c : UInt8} {fg bg : UInt32} {px py : ℕ}
    (hx : px < fb.width.toNat) (hy : py < fb.height.toNat) :
    applyWrites f (fb.charWrites x y c fg bg) (px, py) =
      if (x ≤ px ∧ px < x + 8) ∧ y ≤ py ∧ py < y + 16 then glyphColor c fg bg (px - x) (py - y)
      else f (px, py) := by
  split
  · rename_i h
    have hmem : (px, py) ∈ (fb.charWrites x y c fg bg).map Prod.fst :=
      List.mem_map.mpr ⟨((px, py), glyphColor c fg bg (px - x) (py - y)),
        mem_charWrites.mpr ⟨⟨h.1.1, h.1.2, hx⟩, ⟨h.2.1, h.2.2, hy⟩, rfl⟩, rfl⟩
    exact (mem_charWrites.mp (applyWrites_of_mem hmem)).2.2
  · rename_i h
    refine applyWrites_of_notMem fun hmem => h ?_
    obtain ⟨w, hw, he⟩ := List.mem_map.mp hmem
    obtain ⟨⟨hx0, hx8, -⟩, ⟨hy0, hy16, -⟩, -⟩ := mem_charWrites.mp hw
    rw [he] at hx0 hx8 hy0 hy16
    exact ⟨⟨hx0, hx8⟩, hy0, hy16⟩

/-- `draw_char` writes the pixels of the character. -/
theorem Geometry.drawChar_eq (h : fb.Geometry) (x y : ℕ) (c : UInt8) (fg bg : UInt32) :
    fb.drawChar x y c fg bg = fb.stores (fb.charWrites x y c fg bg) := by
  rw [drawChar, Framebuffer.stores, charWrites, List.map_flatMap]
  refine List.flatMap_congr fun ⟨bits, row⟩ _ => ?_
  rw [List.map_flatMap]
  refine List.flatMap_congr fun dy _ => ?_
  dsimp only
  split
  · rfl
  rw [List.map_flatMap]
  refine List.flatMap_congr fun col _ => ?_
  split
  · rfl
  · rw [List.map_singleton, h.putPixel_eq (by omega) (by omega)]

/-! ## Scrolling -/

/-- The picture after the rows below have moved up and the background has come in. -/
def scrolled (fb : Framebuffer) (rows : ℕ) (bg : UInt32) (f : Picture) : Picture := fun p =>
  if p.2 + rows < fb.height.toNat then f (p.1, p.2 + rows) else bg

/-- The copy of `scroll_rows` moves the rows of the picture. -/
theorem Shows.copy (h : fb.Geometry) {mem : Vram} {f : Picture} (hshows : fb.Shows mem f) {rows : ℕ}
    (hrows : rows < fb.height.toNat) :
    fb.Shows ((Access.copy (rows * fb.pitch.toNat) 0
        ((fb.height.toNat - rows) * fb.pitch.toNat)).apply mem)
      fun p => if p.2 + rows < fb.height.toNat then f (p.1, p.2 + rows) else f p := by
  intro x y hx hy k hk
  show (if 0 ≤ fb.offset x y + k ∧
    fb.offset x y + k < 0 + (fb.height.toNat - rows) * fb.pitch.toNat then _ else _) = _
  dsimp only
  by_cases hmove : y + rows < fb.height.toNat
  · -- A pixel of a row that is copied, from the row below.
    have hle : fb.offset x y + 4 ≤ (fb.height.toNat - rows) * fb.pitch.toNat :=
      h.offset_le hx (by omega)
    have hsrc : rows * fb.pitch.toNat + (fb.offset x y + k - 0) = fb.offset x (y + rows) + k := by
      unfold offset
      rw [Nat.add_mul]
      omega
    rw [if_pos (by omega), if_pos hmove, hsrc]
    exact hshows x (y + rows) hx hmove k hk
  · have hge : (fb.height.toNat - rows) * fb.pitch.toNat ≤ y * fb.pitch.toNat :=
      Nat.mul_le_mul_right _ (by omega)
    have hout : ¬(0 ≤ fb.offset x y + k ∧
        fb.offset x y + k < 0 + (fb.height.toNat - rows) * fb.pitch.toNat) := by
      unfold offset
      omega
    rw [if_neg hout, if_neg hmove]
    exact hshows x y hx hy k hk

/-- What `scroll_rows` does where there are more rows than it scrolls by. -/
theorem scrollRows_eq {rows : ℕ} (hpos : 0 < rows) (hrows : rows < fb.height.toNat) (bg : UInt32) :
    fb.scrollRows rows bg =
      .copy (rows * fb.pitch.toNat) 0 ((fb.height.toNat - rows) * fb.pitch.toNat) ::
        fb.stores (fb.rowWrites (List.range' (fb.height.toNat - rows) rows) bg) := by
  rw [scrollRows, if_neg (by omega)]
  dsimp only
  rw [if_neg (by omega), show fb.height.toNat - (fb.height.toNat - rows) = rows by omega,
    Framebuffer.stores, rowWrites, List.map_flatMap]
  congr 1
  refine List.flatMap_congr fun y _ => ?_
  rw [List.map_map]
  rfl

/-- The rows that `scroll_rows` fills. -/
theorem visible_bottom {rows : ℕ} (hrows : rows < fb.height.toNat) (bg : UInt32) :
    fb.Visible (fb.rowWrites (List.range' (fb.height.toNat - rows) rows) bg) := by
  refine visible_rowWrites (fun y hy => ?_) bg
  rw [List.mem_range'_1] at hy
  omega

/-- `scroll_rows` scrolls the picture. -/
theorem Geometry.shows_scroll (h : fb.Geometry) {mem : Vram} {f : Picture} (hshows : fb.Shows mem f)
    {rows : ℕ} (hpos : 0 < rows) (bg : UInt32) :
    fb.Shows (Access.run mem (fb.scrollRows rows bg)) (fb.scrolled rows bg f) := by
  rcases Nat.lt_or_ge rows fb.height.toNat with hrows | hrows
  · rw [scrollRows_eq hpos hrows, run_cons]
    refine ((hshows.copy h hrows).stores h (visible_bottom hrows bg)).congr fun x y hx hy => ?_
    have hmem : y ∈ List.range' (fb.height.toNat - rows) rows ↔ ¬y + rows < fb.height.toNat := by
      rw [List.mem_range'_1]
      omega
    rw [applyWrites_rowWrites _ bg hx, scrolled]
    dsimp only
    by_cases hmove : y + rows < fb.height.toNat
    · rw [if_neg (fun hin => hmem.mp hin hmove), if_pos hmove, if_pos hmove]
    · rw [if_pos (hmem.mpr hmove), if_neg hmove]
  · -- The whole picture scrolls away.
    rw [scrollRows, if_neg (by omega)]
    dsimp only
    rw [if_pos hrows]
    refine (h.shows_clear mem bg).congr fun x y _ _ => ?_
    rw [scrolled, if_neg (by dsimp only; omega)]

/-- `clear` stays in the frame buffer. -/
theorem Geometry.inside_clear (h : fb.Geometry) (color : UInt32) :
    ∀ a ∈ fb.clear color, ∀ o, a.Writes o ∨ a.Reads o → o < fb.bytes := by
  rw [h.clear_eq]
  exact (visible_range color).inside h

/-- `scroll_rows` stays in the frame buffer. -/
theorem Geometry.inside_scroll (h : fb.Geometry) {rows : ℕ} (hpos : 0 < rows) (bg : UInt32) :
    ∀ a ∈ fb.scrollRows rows bg, ∀ o, a.Writes o ∨ a.Reads o → o < fb.bytes := by
  rcases Nat.lt_or_ge rows fb.height.toNat with hrows | hrows
  · rw [scrollRows_eq hpos hrows]
    refine List.forall_mem_cons.mpr ⟨fun o ho => ?_, (visible_bottom hrows bg).inside h⟩
    -- The rows that are copied and the rows above them are the frame buffer.
    have hsum : rows * fb.pitch.toNat + (fb.height.toNat - rows) * fb.pitch.toNat = fb.bytes := by
      rw [← Nat.add_mul, Nat.add_sub_cancel' hrows.le, bytes, Nat.mul_comm]
    rcases ho with ⟨-, ho⟩ | ⟨-, ho⟩
    · omega
    · omega
  · rw [scrollRows, if_neg (by omega)]
    dsimp only
    rw [if_pos hrows]
    exact h.inside_clear bg

end Framebuffer

/-! ## The grid -/

/-- A grid of characters with a cursor. A cell is blank or has a character. -/
structure Grid (cols rows : ℕ) where
  cell : Fin rows → Fin cols → Option UInt8
  col : Fin cols
  row : Fin rows

namespace Grid

variable {cols rows : ℕ}

/-- The blank grid. -/
def blank (hcols : 0 < cols) (hrows : 0 < rows) : Grid cols rows where
  cell _ _ := none
  col := ⟨0, hcols⟩
  row := ⟨0, hrows⟩

/-- The first column. -/
def home (g : Grid cols rows) : Fin cols := ⟨0, Nat.zero_lt_of_lt g.col.isLt⟩

/-- All lines move up, and a blank one comes in. -/
def scroll (g : Grid cols rows) : Grid cols rows :=
  { g with cell := fun r c => if h : r + 1 < rows then g.cell ⟨r + 1, h⟩ c else none }

/-- The cursor goes to the next line. In the last line, the grid scrolls instead. -/
def newline (g : Grid cols rows) : Grid cols rows :=
  if h : g.row + 1 < rows then { g with col := g.home, row := ⟨g.row + 1, h⟩ }
  else { g.scroll with col := g.home }

/-- A character at the cursor. -/
def set (g : Grid cols rows) (b : UInt8) : Grid cols rows :=
  { g with cell := Function.update g.cell g.row (Function.update (g.cell g.row) g.col (some b)) }

/-- A character is put, and the cursor advances. After the last column, it wraps. -/
def put (g : Grid cols rows) (b : UInt8) : Grid cols rows :=
  if b = 0x0a then g.newline
  else if h : g.col + 1 < cols then { g.set b with col := ⟨g.col + 1, h⟩ }
  else (g.set b).newline

/-- Characters are put one after another. -/
def putAll (g : Grid cols rows) (bytes : List UInt8) : Grid cols rows := bytes.foldl put g

/-- The character in a cell. There are none outside the grid. -/
def at? (g : Grid cols rows) (r c : ℕ) : Option UInt8 :=
  if h : r < rows ∧ c < cols then g.cell ⟨r, h.1⟩ ⟨c, h.2⟩ else none

/-- The grid drawn: cells of 8 by 16 pixels from the top left, and the background elsewhere. -/
def picture (g : Grid cols rows) (fg bg : UInt32) : Picture := fun p =>
  match g.at? (p.2 / 16) (p.1 / 8) with
  | some c => glyphColor c fg bg (p.1 % 8) (p.2 % 16)
  | none => bg

/-- Outside the grid there is nothing. -/
theorem at?_eq_none (g : Grid cols rows) {r c : ℕ} (h : cols ≤ c ∨ rows ≤ r) : g.at? r c = none :=
  dif_neg (by omega)

/-- The blank grid is blank. -/
theorem at?_blank (hcols : 0 < cols) (hrows : 0 < rows) (r c : ℕ) :
    (blank hcols hrows).at? r c = none := by
  rw [at?]
  split
  · rfl
  · rfl

/-- Cells after a scroll. -/
theorem at?_scroll (g : Grid cols rows) (r c : ℕ) : g.scroll.at? r c = g.at? (r + 1) c := by
  unfold at? scroll
  dsimp only
  by_cases hc : c < cols
  · by_cases hr : r + 1 < rows
    · rw [dif_pos ⟨by omega, hc⟩, dif_pos hr, dif_pos ⟨hr, hc⟩]
    · rw [dif_neg (show ¬(r + 1 < rows ∧ c < cols) from fun h => hr h.1)]
      split
      · rfl
      · rfl
  · rw [dif_neg (fun h => hc h.2), dif_neg (fun h => hc h.2)]

/-- Cells after a character is put at the cursor. -/
theorem at?_set (g : Grid cols rows) (b : UInt8) (r c : ℕ) :
    (g.set b).at? r c = if r = g.row ∧ c = g.col then some b else g.at? r c := by
  unfold at? set
  dsimp only
  by_cases hin : r < rows ∧ c < cols
  · rw [dif_pos hin, dif_pos hin]
    by_cases hr : r = g.row
    · subst hr
      rw [Function.update_self]
      by_cases hc : c = g.col
      · subst hc
        rw [Function.update_self, if_pos ⟨rfl, rfl⟩]
      · rw [Function.update_of_ne (fun e => hc (congrArg Fin.val e)), if_neg (fun e => hc e.2)]
    · rw [Function.update_of_ne (fun e => hr (congrArg Fin.val e)), if_neg (fun e => hr e.1)]
  · rw [dif_neg hin, dif_neg hin, if_neg]
    rintro ⟨rfl, rfl⟩
    exact hin ⟨g.row.isLt, g.col.isLt⟩

/-- The picture outside the grid is the background. -/
theorem picture_outside (g : Grid cols rows) (fg bg : UInt32) {x y : ℕ}
    (h : cols * 8 ≤ x ∨ rows * 16 ≤ y) : g.picture fg bg (x, y) = bg := by
  unfold picture
  dsimp only
  rw [g.at?_eq_none (by omega)]

/-- The picture of the blank grid is the background. -/
theorem picture_blank (hcols : 0 < cols) (hrows : 0 < rows) (fg bg : UInt32) (p : ℕ × ℕ) :
    (blank hcols hrows).picture fg bg p = bg := by
  unfold picture
  rw [at?_blank]

/-- The picture after a scroll is that of 16 pixels below. -/
theorem picture_scroll (g : Grid cols rows) (fg bg : UInt32) (x y : ℕ) :
    g.scroll.picture fg bg (x, y) = g.picture fg bg (x, y + 16) := by
  unfold picture
  dsimp only
  rw [at?_scroll, Nat.add_div_right y (by decide), Nat.add_mod_right]

/-- A character at the cursor changes the picture in its cell, where it shows the character. -/
theorem picture_set (g : Grid cols rows) (b : UInt8) (fg bg : UInt32) (x y : ℕ) :
    (g.set b).picture fg bg (x, y) =
      if (g.col * 8 ≤ x ∧ x < g.col * 8 + 8) ∧ g.row * 16 ≤ y ∧ y < g.row * 16 + 16 then
        glyphColor b fg bg (x - g.col * 8) (y - g.row * 16)
      else g.picture fg bg (x, y) := by
  unfold picture
  dsimp only
  rw [at?_set]
  by_cases hcell : y / 16 = g.row ∧ x / 8 = g.col
  · rw [if_pos hcell, if_pos (by omega), show x % 8 = x - g.col * 8 by omega,
      show y % 16 = y - g.row * 16 by omega]
  · rw [if_neg hcell, if_neg (by omega)]

/-- Below the last row there is none. -/
theorem row_eq_last (g : Grid cols rows) (h : ¬g.row + 1 < rows) : rows - 1 = g.row := by
  have hlt := g.row.isLt
  omega

end Grid

/-! ## The console draws the grid -/

namespace Framebuffer

/-- The columns of the console. -/
def cols (fb : Framebuffer) : ℕ := max (fb.width.toNat / fontWidth) 1

/-- The rows of the console. -/
def rows (fb : Framebuffer) : ℕ := max (fb.height.toNat / fontHeight) 1

/-- There is a column. -/
theorem cols_pos (fb : Framebuffer) : 0 < fb.cols := Nat.le_max_right _ 1

/-- There is a row. -/
theorem rows_pos (fb : Framebuffer) : 0 < fb.rows := Nat.le_max_right _ 1

/-- The grid of a new console. -/
def blank (fb : Framebuffer) : Grid fb.cols fb.rows := Grid.blank fb.cols_pos fb.rows_pos

end Framebuffer

/-- The console at the cursor of a grid. -/
def Grid.console {fb : Framebuffer} (g : Grid fb.cols fb.rows) (fg bg : UInt32) : Console where
  fb := fb
  col := g.col
  row := g.row
  cols := fb.cols
  rows := fb.rows
  fg := fg
  bg := bg

section

variable {fb : Framebuffer} {fg bg : UInt32}

/-- The console draws what takes one grid to another: it ends up at the cursor, stays in the frame
buffer and changes the picture of the one into that of the other. -/
structure Draws (fg bg : UInt32) (g g' : Grid fb.cols fb.rows) (out : List Access × Console) :
    Prop where
  console : out.2 = g'.console fg bg
  inside : ∀ a ∈ out.1, ∀ o, a.Writes o ∨ a.Reads o → o < fb.bytes
  shows : ∀ mem, fb.Shows mem (g.picture fg bg) →
    fb.Shows (Access.run mem out.1) (g'.picture fg bg)

/-- One drawing after another. -/
theorem Draws.trans {g g' g'' : Grid fb.cols fb.rows} {as : List Access} {c : Console}
    {out : List Access × Console} (h : Draws fg bg g g' (as, c)) (h' : Draws fg bg g' g'' out) :
    Draws fg bg g g'' (as ++ out.1, out.2) where
  console := h'.console
  inside := List.forall_mem_append.mpr ⟨h.inside, h'.inside⟩
  shows mem hshows := by
    rw [Framebuffer.run_append]
    exact h'.shows _ (h.shows mem hshows)

/-- `newline` draws a newline. -/
theorem draws_newline (h : fb.Geometry) (g : Grid fb.cols fb.rows) :
    Draws fg bg g g.newline (g.console fg bg).newline := by
  unfold Console.newline
  dsimp only
  by_cases hrow : g.row + 1 < fb.rows
  · have hnew : g.newline = { g with col := g.home, row := ⟨g.row + 1, hrow⟩ } := dif_pos hrow
    rw [if_neg (by exact Nat.not_le.mpr hrow), hnew]
    exact ⟨rfl, fun a ha => (List.not_mem_nil ha).elim, fun mem hshows => hshows⟩
  · have hnew : g.newline = { g.scroll with col := g.home } := dif_neg hrow
    have hfont : 0 < fontHeight := by decide
    rw [if_pos (by exact Nat.not_lt.mp hrow), hnew]
    refine ⟨?_, h.inside_scroll hfont bg, fun mem hshows => ?_⟩
    · show Console.mk fb 0 (fb.rows - 1) fb.cols fb.rows fg bg = _
      rw [g.row_eq_last hrow]
      rfl
    · refine (h.shows_scroll hshows hfont bg).congr fun x y hx hy => ?_
      show _ = g.scroll.picture fg bg (x, y)
      rw [Grid.picture_scroll]
      show (if y + 16 < fb.height.toNat then g.picture fg bg (x, y + 16) else bg) = _
      by_cases hmove : y + 16 < fb.height.toNat
      · exact if_pos hmove
      · -- Below the last row of pixels there is no line of the grid.
        have hrows : fb.rows = max (fb.height.toNat / 16) 1 := rfl
        rw [if_neg hmove, g.picture_outside fg bg (.inr (by omega))]

/-- `draw_char` draws a character at the cursor, which does not advance yet. -/
theorem draws_set (h : fb.Geometry) (g : Grid fb.cols fb.rows) (b : UInt8) :
    Draws fg bg g (g.set b)
      (fb.drawChar (g.col * fontWidth) (g.row * fontHeight) b fg bg, g.console fg bg) where
  console := rfl
  inside := by
    rw [h.drawChar_eq]
    exact (Framebuffer.visible_charWrites _ _ b fg bg).inside h
  shows mem hshows := by
    rw [h.drawChar_eq]
    refine (hshows.stores h (Framebuffer.visible_charWrites _ _ b fg bg)).congr fun x y hx hy => ?_
    rw [Framebuffer.applyWrites_charWrites _ hx hy, Grid.picture_set]
    rfl

/-- Where the cursor is does not change the picture. -/
theorem Draws.moved {g g' : Grid fb.cols fb.rows} {out : List Access × Console}
    (h : Draws fg bg g g' out) (col : Fin fb.cols) :
    Draws fg bg g { g' with col } (out.1, { out.2 with col := col }) where
  console := by
    rw [h.console]
    rfl
  inside := h.inside
  shows := h.shows

/-- `write_byte` draws a character and advances. -/
theorem draws_writeByte (h : fb.Geometry) (g : Grid fb.cols fb.rows) (b : UInt8) :
    Draws fg bg g (g.put b) ((g.console fg bg).writeByte b) := by
  rw [Console.writeByte, Console.putChar, Grid.put]
  by_cases hb : b = 0x0a
  · rw [if_pos hb, if_pos hb]
    exact draws_newline h g
  · rw [if_neg hb, if_neg hb]
    have hset : Draws fg bg g (g.set b)
        (fb.drawChar (g.col * fontWidth) (g.row * fontHeight) b fg bg, g.console fg bg) :=
      draws_set h g b
    dsimp only
    by_cases hcol : g.col + 1 < fb.cols
    · rw [dif_pos hcol, if_neg (by exact Nat.not_le.mpr hcol)]
      exact hset.moved ⟨g.col + 1, hcol⟩
    · rw [dif_neg hcol, if_pos (by exact Nat.not_lt.mp hcol)]
      -- `newline` resets the column, which has run past the last one.
      exact hset.trans (draws_newline h (g.set b))

/-- `write_byte` for one byte after another draws the characters. -/
theorem draws_writeBytes (h : fb.Geometry) (g : Grid fb.cols fb.rows) (bytes : List UInt8) :
    Draws fg bg g (g.putAll bytes) ((g.console fg bg).writeBytes bytes) := by
  induction bytes generalizing g with
  | nil => exact ⟨rfl, fun a ha => (List.not_mem_nil ha).elim, fun mem hshows => hshows⟩
  | cons b bytes ih =>
    have hfirst : Draws fg bg g (g.put b) ((g.console fg bg).writeByte b) := draws_writeByte h g b
    have hrest := ih (g.put b)
    rw [← hfirst.console] at hrest
    exact hfirst.trans hrest

/-- A new line moves the cursor of the console as that of the grid, from any column. -/
theorem console_newline (g : Grid fb.cols fb.rows) (col : ℕ) :
    (Console.newline { g.console fg bg with col := col }).2 = g.newline.console fg bg := by
  unfold Console.newline Grid.newline
  dsimp only
  by_cases hrow : g.row + 1 < fb.rows
  · rw [if_neg (by exact Nat.not_le.mpr hrow), dif_pos hrow]
    rfl
  -- on the last row the console scrolls, and its cursor stays there
  · rw [if_pos (by exact Nat.not_lt.mp hrow), dif_neg hrow]
    show Console.mk fb 0 (fb.rows - 1) fb.cols fb.rows fg bg = _
    rw [g.row_eq_last hrow]
    rfl

/-- So does a byte. -/
theorem console_writeByte (g : Grid fb.cols fb.rows) (b : UInt8) :
    ((g.console fg bg).writeByte b).2 = (g.put b).console fg bg := by
  rw [Console.writeByte, Console.putChar, Grid.put]
  by_cases hb : b = 0x0a
  · rw [if_pos hb, if_pos hb]
    exact console_newline g g.col
  · rw [if_neg hb, if_neg hb]
    dsimp only
    by_cases hcol : g.col + 1 < fb.cols
    · rw [dif_pos hcol, if_neg (by exact Nat.not_le.mpr hcol)]
      rfl
    · rw [dif_neg hcol, if_pos (by exact Nat.not_lt.mp hcol)]
      exact console_newline (g.set b) (g.col + 1)

/-- The cursor of the console is that of the grid, whatever the frame buffer is. -/
theorem console_writeBytes (g : Grid fb.cols fb.rows) (bytes : List UInt8) :
    ((g.console fg bg).writeBytes bytes).2 = (g.putAll bytes).console fg bg := by
  induction bytes generalizing g with
  | nil => rfl
  | cons b bytes ih =>
    show (((g.console fg bg).writeByte b).2.writeBytes bytes).2 = _
    rw [console_writeByte]
    exact ih (g.put b)

/-- On a cleared frame buffer, the visible pixels are the picture of the grid. -/
theorem Framebuffer.Geometry.shows_writeBytes (h : fb.Geometry) (fg bg : UInt32) (mem : Vram)
    (bytes : List UInt8) :
    fb.Shows (Access.run mem (fb.clear bg ++ ((Console.new fb fg bg).writeBytes bytes).1))
      ((fb.blank.putAll bytes).picture fg bg) := by
  have hdraws : Draws fg bg fb.blank (fb.blank.putAll bytes)
      ((Console.new fb fg bg).writeBytes bytes) := draws_writeBytes h fb.blank bytes
  rw [Framebuffer.run_append]
  refine hdraws.shows _ ((h.shows_clear mem bg).congr fun x y _ _ => ?_)
  exact (Grid.picture_blank fb.cols_pos fb.rows_pos fg bg (x, y)).symm

/-- The console refines the grid. On a cleared frame buffer, whatever bytes are written, the cursor is
that of the grid and in the grid, every store and every copy stays in the frame buffer, and the visible
pixels are the picture of the grid, which is the background outside its cells. -/
theorem console_refines (h : fb.Geometry) (fg bg : UInt32) (mem : Vram) (bytes : List UInt8) :
    let out := (Console.new fb fg bg).writeBytes bytes
    let g := fb.blank.putAll bytes
    let after := Access.run mem (fb.clear bg ++ out.1)
    ((out.2.col = g.col ∧ out.2.row = g.row) ∧ out.2.col < out.2.cols ∧ out.2.row < out.2.rows) ∧
      (∀ a ∈ fb.clear bg ++ out.1, ∀ o, a.Writes o ∨ a.Reads o → o < fb.bytes) ∧
      ∀ x y, x < fb.width.toNat → y < fb.height.toNat →
        after.load (fb.offset x y) = g.picture fg bg (x, y) ∧
        (out.2.cols * fontWidth ≤ x ∨ out.2.rows * fontHeight ≤ y →
          after.load (fb.offset x y) = bg) := by
  intro out g after
  have hdraws : Draws fg bg fb.blank g out := draws_writeBytes h fb.blank bytes
  have hshows : fb.Shows after (g.picture fg bg) := h.shows_writeBytes fg bg mem bytes
  rw [hdraws.console]
  refine ⟨⟨⟨rfl, rfl⟩, g.col.isLt, g.row.isLt⟩,
    List.forall_mem_append.mpr ⟨h.inside_clear bg, hdraws.inside⟩, fun x y hx hy => ?_⟩
  have hload := (hshows x y hx hy).load_eq
  exact ⟨hload, fun hout => hload.trans (g.picture_outside fg bg hout)⟩

end

/-- A small frame buffer, with columns, rows and bytes left over. -/
def smallFb : Framebuffer := ⟨0x1000, 20, 40, 100⟩

/-- After an `A`, the cursor is in the second column, and a pixel of the letter is lit. -/
theorem console_refines_small :
    let out := (Console.new smallFb 0xffffff 0).writeBytes [0x41]
    out.2.col = 1 ∧
      (Access.run (fun _ => 0xaa) (smallFb.clear 0 ++ out.1)).load (smallFb.offset 3 2) = 0xffffff := by
  have h : smallFb.Geometry := by constructor <;> decide
  have hrefines := console_refines h 0xffffff 0 (fun _ => 0xaa) [0x41]
  have hpixel := (hrefines.2.2 3 2 (by decide) (by decide)).1
  exact ⟨hrefines.1.1.1.trans (by decide), hpixel.trans (by decide +kernel)⟩

end Ralix.Drivers
