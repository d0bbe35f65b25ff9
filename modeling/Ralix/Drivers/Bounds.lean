import Ralix.Drivers.Framebuffer
import Ralix.Dtb.Tree

/-!
# Where the console writes

The frame buffer's address, size, width, height and stride come from the device tree, each as a number
of its own. `init_from_simplefb` checks that four of them are not zero, and never looks at the size.
`inRange_iff` says exactly when the console stays in the range of memory that the description gives.
It writes at pixels and, where there are more pixel rows than it scrolls by, it scrolls. Offsets of
pixels wrap, those of a scroll do not.
-/

namespace Ralix.Drivers

open Lib Gfx Mm
open Dtb (SimpleFbInfo findSimplefb)

namespace Framebuffer

variable {fb : Framebuffer} {a : Access}

/-- The access is to a pixel. -/
def AtPixel (fb : Framebuffer) (a : Access) : Prop :=
  ∃ x y color, x < fb.width.toNat ∧ y < fb.height.toNat ∧
    a = fb.putPixel (UInt32.ofNat x) (UInt32.ofNat y) color

/-- The bytes up to the last pixel. -/
def extent (fb : Framebuffer) : ℕ := (fb.height.toNat - 1) * fb.pitch.toNat + fb.width.toNat * 4

/-- The access is to a pixel, or one of a scroll, which ends with the last pixel. -/
def Touches (fb : Framebuffer) (a : Access) : Prop :=
  fb.AtPixel a ∨ fontHeight < fb.height.toNat ∧ ∀ o, a.Writes o → o < fb.extent

/-- `clear` writes at pixels. -/
theorem atPixel_of_clear {color : UInt32} (h : a ∈ fb.clear color) : fb.AtPixel a := by
  obtain ⟨y, hy, h⟩ := List.mem_flatMap.mp h
  obtain ⟨x, hx, rfl⟩ := List.mem_map.mp h
  exact ⟨x, y, color, List.mem_range.mp hx, List.mem_range.mp hy, rfl⟩

/-- `clear` writes at every pixel. -/
theorem mem_clear {color : UInt32} {x y : ℕ} (hx : x < fb.width.toNat) (hy : y < fb.height.toNat) :
    fb.putPixel (UInt32.ofNat x) (UInt32.ofNat y) color ∈ fb.clear color :=
  List.mem_flatMap.mpr ⟨y, List.mem_range.mpr hy, List.mem_map.mpr ⟨x, List.mem_range.mpr hx, rfl⟩⟩

/-- `draw_char` writes at pixels. -/
theorem atPixel_of_drawChar {x y : ℕ} {c : UInt8} {fg bg : UInt32} (h : a ∈ fb.drawChar x y c fg bg) :
    fb.AtPixel a := by
  obtain ⟨⟨bits, row⟩, -, h⟩ := List.mem_flatMap.mp h
  obtain ⟨dy, -, h⟩ := List.mem_flatMap.mp h
  dsimp only at h
  split at h
  · cases h
  rename_i hy
  obtain ⟨col, -, h⟩ := List.mem_flatMap.mp h
  split at h
  · cases h
  rename_i hx
  exact ⟨_, _, _, Nat.not_le.mp hx, Nat.not_le.mp hy, List.mem_singleton.mp h⟩

/-- The stores of a scroll. -/
theorem mem_scrollRows {rows : ℕ} {bg : UInt32} (hpos : 0 < rows) (hrows : rows < fb.height.toNat) :
    a ∈ fb.scrollRows rows bg ↔
      a = .copy (rows * fb.pitch.toNat) 0 ((fb.height.toNat - rows) * fb.pitch.toNat) ∨
        ∃ x y, x < fb.width.toNat ∧ (fb.height.toNat - rows ≤ y ∧ y < fb.height.toNat) ∧
          a = .store (y * fb.pitch.toNat + x * 4) bg := by
  rw [scrollRows, if_neg (by omega)]
  dsimp only
  rw [if_neg (by omega), List.mem_cons]
  refine or_congr_right ?_
  simp only [List.mem_flatMap, List.mem_map, List.mem_range, List.mem_range'_1]
  constructor
  · rintro ⟨y, hy, x, hx, rfl⟩
    exact ⟨x, y, hx, by omega, rfl⟩
  · rintro ⟨x, y, hx, hy, rfl⟩
    exact ⟨y, by omega, x, hx, rfl⟩

/-- A pixel ends before the last one does. -/
theorem pixel_le_extent {x y : ℕ} (hx : x < fb.width.toNat) (hy : y < fb.height.toNat) :
    y * fb.pitch.toNat + x * 4 + 4 ≤ fb.extent := by
  have hrow : y * fb.pitch.toNat ≤ (fb.height.toNat - 1) * fb.pitch.toNat :=
    Nat.mul_le_mul_right _ (by omega)
  unfold extent
  omega

/-- `scroll_rows`, by the height of a character. -/
theorem touches_of_scrollRows {bg : UInt32} (h : a ∈ fb.scrollRows fontHeight bg) : fb.Touches a := by
  have hfont : 0 < fontHeight := by decide
  by_cases hrows : fontHeight < fb.height.toNat
  · right
    refine ⟨hrows, fun o ho => ?_⟩
    rcases (mem_scrollRows hfont hrows).mp h with rfl | ⟨x, y, hx, hy, rfl⟩
    · have hrow : (fb.height.toNat - fontHeight) * fb.pitch.toNat ≤
          (fb.height.toNat - 1) * fb.pitch.toNat := Nat.mul_le_mul_right _ (by omega)
      have hlt : o < 0 + (fb.height.toNat - fontHeight) * fb.pitch.toNat := ho.2
      unfold extent
      omega
    · have hle := pixel_le_extent hx hy.2
      exact ho.2.trans_le hle
  · left
    rw [scrollRows, if_neg (by omega)] at h
    dsimp only at h
    rw [if_pos (by omega)] at h
    exact atPixel_of_clear h

/-- The offset of a pixel, as `put_pixel` computes it. -/
theorem putPixel_eq {x y : ℕ} (hx : x < fb.width.toNat) (hy : y < fb.height.toNat) (color : UInt32) :
    fb.putPixel (UInt32.ofNat x) (UInt32.ofNat y) color =
      .store ((y * fb.pitch.toNat + x * 4) % 2^32) color := by
  have hxlt := fb.width.toNat_lt
  have hylt := fb.height.toNat_lt
  rw [putPixel, UInt32.toNat_add, UInt32.toNat_mul, UInt32.toNat_mul,
    UInt32.toNat_ofNat_of_lt' (show y < 2^32 by omega),
    UInt32.toNat_ofNat_of_lt' (show x < 2^32 by omega)]
  congr 1
  show (y * fb.pitch.toNat % 2^32 + x * 4 % 2^32) % 2^32 = _
  rw [← Nat.add_mod]

end Framebuffer

/-! ## The accesses of a console -/

namespace Console

/-- `newline` scrolls, or does nothing. -/
theorem touches_of_newline (c : Console) : (∀ a ∈ c.newline.1, c.fb.Touches a) ∧
    c.newline.2.fb = c.fb := by
  unfold newline
  dsimp only
  split
  · exact ⟨fun a ha => Framebuffer.touches_of_scrollRows ha, rfl⟩
  · exact ⟨fun a ha => (List.not_mem_nil ha).elim, rfl⟩

/-- `put_char` draws, and may scroll. -/
theorem touches_of_putChar (c : Console) (b : UInt8) : (∀ a ∈ (c.putChar b).1, c.fb.Touches a) ∧
    (c.putChar b).2.fb = c.fb := by
  unfold putChar
  by_cases hb : b = 0x0a
  · rw [if_pos hb]
    exact c.touches_of_newline
  rw [if_neg hb]
  dsimp only
  have hdraw : ∀ a ∈ c.fb.drawChar (c.col * fontWidth) (c.row * fontHeight) b c.fg c.bg,
      c.fb.Touches a := fun a ha => .inl (Framebuffer.atPixel_of_drawChar ha)
  split
  · obtain ⟨hscroll, hfb⟩ := touches_of_newline { c with col := c.col + 1 }
    exact ⟨List.forall_mem_append.mpr ⟨hdraw, hscroll⟩, hfb⟩
  · exact ⟨hdraw, rfl⟩

/-- So does a console that is written to. -/
theorem touches_of_writeBytes (c : Console) (bytes : List UInt8) :
    ∀ a ∈ (c.writeBytes bytes).1, c.fb.Touches a := by
  induction bytes generalizing c with
  | nil => exact fun a ha => (List.not_mem_nil ha).elim
  | cons b bytes ih =>
    obtain ⟨hfirst, hfb⟩ := c.touches_of_putChar b
    have hrest := ih (c.putChar b).2
    rw [hfb] at hrest
    exact List.forall_mem_append.mpr ⟨hfirst, hrest⟩

/-- A newline that is written. -/
theorem writeBytes_newline (c : Console) (bytes : List UInt8) : c.writeBytes (0x0a :: bytes) =
    (c.newline.1 ++ (c.newline.2.writeBytes bytes).1, (c.newline.2.writeBytes bytes).2) := by
  rw [writeBytes, writeByte, putChar, if_pos rfl]

/-- As many newlines as there are rows left scroll. -/
theorem mem_newlines {a : Access} (n : ℕ) (c : Console) (hn : c.row + n + 1 = c.rows)
    (h : a ∈ c.fb.scrollRows fontHeight c.bg) :
    a ∈ (c.writeBytes (List.replicate (n + 1) 0x0a)).1 := by
  induction n generalizing c with
  | zero =>
    have hnewline : c.newline.1 = c.fb.scrollRows fontHeight c.bg := by
      rw [newline, if_pos (by omega)]
    rw [List.replicate_succ, writeBytes_newline, hnewline]
    exact List.mem_append_left _ h
  | succ n ih =>
    have hnewline : c.newline = ([], { c with col := 0, row := c.row + 1 }) := by
      rw [newline, if_neg (by omega)]
    rw [List.replicate_succ, writeBytes_newline, hnewline]
    refine List.mem_append_right _ ?_
    exact ih { c with col := 0, row := c.row + 1 } (by dsimp only; omega) h

end Console

/-! ## The range of the description -/

/-- Every address that the access writes lies in the range that the description gives. -/
def Within (info : SimpleFbInfo) (fb : Framebuffer) (a : Access) : Prop :=
  ∀ o, a.Writes o → physToVirt info.addr.toNat ≤ fb.ptr + o ∧
    fb.ptr + o < physToVirt info.addr.toNat + info.size.toNat

/-- So do all addresses that `init_console_from_simplefb` and a console that is written to write. -/
def InRange (info : SimpleFbInfo) (fb : Framebuffer) (fg bg : UInt32) : Prop :=
  ∀ bytes, ∀ a ∈ fb.clear bg ++ ((Console.new fb fg bg).writeBytes bytes).1, Within info fb a

/-- The size is large enough: up to the last pixel if the console scrolls, or else for each pixel
at its 32-bit offset. -/
def SizeSuffices (info : SimpleFbInfo) : Prop :=
  if fontHeight < info.height.toNat then
    (info.height.toNat - 1) * info.stride.toNat + info.width.toNat * 4 ≤ info.size.toNat
  else
    ∀ x < info.width.toNat, ∀ y < info.height.toNat,
      (y * info.stride.toNat + x * 4) % 2^32 + 4 ≤ info.size.toNat

instance (info : SimpleFbInfo) : Decidable (SizeSuffices info) := by
  unfold SizeSuffices
  infer_instance

/-- What `init_from_simplefb` accepts. -/
theorem initFromSimplefb_eq_some {info : SimpleFbInfo} {fb : Framebuffer}
    (h : Framebuffer.initFromSimplefb info = some fb) :
    info.width ≠ 0 ∧ info.height ≠ 0 ∧
      fb = ⟨physToVirt info.addr.toNat, info.width, info.height, info.stride⟩ := by
  unfold Framebuffer.initFromSimplefb at h
  split at h
  · cases h
  rename_i hzero
  simp only [not_or] at hzero
  refine ⟨hzero.2.1, hzero.2.2.1, ?_⟩
  split at h
  · exact (Option.some.inj h).symm
  · exact (Option.some.inj h).symm

/-- An access is within the range if the bytes that it writes are. -/
theorem within_iff {info : SimpleFbInfo} {fb : Framebuffer}
    (hptr : fb.ptr = physToVirt info.addr.toNat) (a : Access) :
    Within info fb a ↔ ∀ o, a.Writes o → o < info.size.toNat := by
  refine forall₂_congr fun o _ => ?_
  rw [hptr]
  omega

/-- A console on an accepted description stays in its range, for all bytes, exactly if the size is large
enough. -/
theorem inRange_iff {info : SimpleFbInfo} {fb : Framebuffer}
    (h : Framebuffer.initFromSimplefb info = some fb) (fg bg : UInt32) :
    InRange info fb fg bg ↔ SizeSuffices info := by
  obtain ⟨hwidth, hheight, rfl⟩ := initFromSimplefb_eq_some h
  have hfont : 0 < fontHeight := by decide
  have hw : 0 < info.width.toNat :=
    Nat.pos_of_ne_zero fun e => hwidth (UInt32.toNat_inj.mp e)
  generalize hfb : Framebuffer.mk (physToVirt info.addr.toNat) info.width info.height info.stride = fb
  have hptr : fb.ptr = physToVirt info.addr.toNat := by rw [← hfb]
  have hfbWidth : fb.width = info.width := by rw [← hfb]
  have hfbHeight : fb.height = info.height := by rw [← hfb]
  have hfbPitch : fb.pitch = info.stride := by rw [← hfb]
  unfold InRange SizeSuffices
  simp only [within_iff hptr, ← hfbWidth, ← hfbHeight, ← hfbPitch]
  rw [← hfbWidth] at hw
  constructor
  · intro hin
    split
    · rename_i hrows
      -- Newlines down to the last row and one more write the last pixel by a scroll.
      have hmem : Access.store ((fb.height.toNat - 1) * fb.pitch.toNat + (fb.width.toNat - 1) * 4) bg ∈
          fb.scrollRows fontHeight bg :=
        (Framebuffer.mem_scrollRows hfont hrows).mpr
          (.inr ⟨_, _, Nat.sub_lt hw Nat.one_pos, by omega, rfl⟩)
      have hrowsPos : 1 ≤ (Console.new fb fg bg).rows := Nat.le_max_right _ _
      have hwrites := hin (List.replicate ((Console.new fb fg bg).rows - 1 + 1) 0x0a) _
        (List.mem_append_right _
          (Console.mem_newlines _ (Console.new fb fg bg) (by dsimp only [Console.new] at *; omega) hmem))
      have hlast := hwrites
        ((fb.height.toNat - 1) * fb.pitch.toNat + (fb.width.toNat - 1) * 4 + 3) ⟨by omega, by omega⟩
      omega
    · intro x hx y hy
      have hwrites := hin [] _ (List.mem_append_left _ (Framebuffer.mem_clear hx hy))
      rw [Framebuffer.putPixel_eq hx hy] at hwrites
      have hlast := hwrites ((y * fb.pitch.toNat + x * 4) % 2^32 + 3) ⟨by omega, by omega⟩
      omega
  · intro hsize bytes a ha o ho
    have htouches : fb.Touches a := by
      rcases List.mem_append.mp ha with ha | ha
      · exact .inl (Framebuffer.atPixel_of_clear ha)
      · exact (Console.new fb fg bg).touches_of_writeBytes bytes a ha
    by_cases hrows : fontHeight < fb.height.toNat
    · rw [if_pos hrows] at hsize
      rcases htouches with ⟨x, y, color, hx, hy, rfl⟩ | ⟨-, hscroll⟩
      · rw [Framebuffer.putPixel_eq hx hy] at ho
        have hle := Framebuffer.pixel_le_extent hx hy
        have hmod := Nat.mod_le (y * fb.pitch.toNat + x * 4) (2^32)
        unfold Framebuffer.extent at hle
        have hlt : o < (y * fb.pitch.toNat + x * 4) % 2^32 + 4 := ho.2
        omega
      · exact (hscroll o ho).trans_le hsize
    · rw [if_neg hrows] at hsize
      rcases htouches with ⟨x, y, color, hx, hy, rfl⟩ | ⟨hrows', -⟩
      · rw [Framebuffer.putPixel_eq hx hy] at ho
        exact ho.2.trans_le (hsize x hx y hy)
      · exact absurd hrows' hrows

/-- A frame buffer of 64 by 32 pixels, of four bytes each, that is said to have a size. -/
def thinInfo (size : UInt64) : SimpleFbInfo := ⟨0x3c100000, size, 64, 32, 256, .x8r8g8b8⟩

/-- What `init_from_simplefb` makes of it. -/
def thinFb : Framebuffer := ⟨physToVirt 0x3c100000, 64, 32, 256⟩

/-- Two pages are enough for it. -/
theorem inRange_iff_thin : InRange (thinInfo 8192) thinFb 0xffffff 0 := by
  have hinit : Framebuffer.initFromSimplefb (thinInfo 8192) = some thinFb := rfl
  exact (inRange_iff hinit 0xffffff 0).mpr (by decide)

/-- A device tree with that frame buffer, and one page for it. -/
def thinTree : Dtb.Items :=
  .node (Dtb.ascii "framebuffer")
    (.prop (Dtb.ascii "compatible") (Dtb.ascii "simple-framebuffer" ++ [0])
      (.prop (Dtb.ascii "reg") (Dtb.be32 0 ++ Dtb.be32 0x3c100000 ++ Dtb.be32 0 ++ Dtb.be32 4096)
        (.prop (Dtb.ascii "width") (Dtb.be32 64)
          (.prop (Dtb.ascii "height") (Dtb.be32 32)
            (.prop (Dtb.ascii "stride") (Dtb.be32 256)
              (.prop (Dtb.ascii "format") (Dtb.ascii "x8r8g8b8" ++ [0]) .nil))))))
    .nil

/-- The names of its properties. -/
def thinStrings : Dtb.Bytes :=
  Dtb.ascii "compatible" ++ [0] ++ Dtb.ascii "reg" ++ [0] ++ Dtb.ascii "width" ++ [0] ++
    Dtb.ascii "height" ++ [0] ++ Dtb.ascii "stride" ++ [0] ++ Dtb.ascii "format" ++ [0]

set_option maxRecDepth 4000 in
/-- A blob of the tree. -/
def thinBlob : Dtb.Blob where
  totalSize := 300
  structBlock := Dtb.structBytes thinStrings [] thinTree
  stringsBlock := thinStrings
  struct_lt := by decide
  strings_lt := by decide

set_option maxRecDepth 4000 in
/-- It is a flattening of the tree. -/
theorem flattens_thin : Dtb.Flattens thinBlob [] thinTree := Dtb.flattens_structBytes rfl (by decide)

set_option maxRecDepth 4000 in
/-- `find_simplefb` returns the frame buffer. -/
theorem findSimplefb_thin : findSimplefb (Dtb.Memory.holding 4096 thinBlob.bytes) 4096 =
    .ok (some (thinInfo 4096)) := by
  rw [findSimplefb, if_neg (by decide), Dtb.readHeader_holding 4096 thinBlob (by decide), Exec.ok_bind]
  show Dtb.findSimplefbIn thinBlob = _
  rw [Dtb.findSimplefbIn, Dtb.walk_flattens flattens_thin]
  rfl

/-- The console leaves the range of a description that `find_simplefb` returns and
`init_from_simplefb` accepts. -/
theorem not_inRange : ¬∀ mem dtbPa info fb fg bg, findSimplefb mem dtbPa = .ok (some info) →
    Framebuffer.initFromSimplefb info = some fb → InRange info fb fg bg := by
  intro h
  have hin := h _ _ _ thinFb 0xffffff 0 findSimplefb_thin rfl
  -- The last pixel is at 8188.
  have hmem : thinFb.putPixel (UInt32.ofNat 63) (UInt32.ofNat 31) 0 ∈ thinFb.clear 0 :=
    Framebuffer.mem_clear (by decide) (by decide)
  have hlast := hin [] _ (List.mem_append_left _ hmem) 8188 ⟨by decide, by decide⟩
  exact absurd hlast.2 (by decide)

end Ralix.Drivers
