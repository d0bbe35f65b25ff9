import Ralix.Dtb.SimpleFb
import Ralix.Gfx.Font
import Ralix.Mm.Layout

/-!
# The frame buffer and its console

`src/drivers/framebuffer.rs` from `init_from_simplefb` on. What the functions do depends on numbers
only and never on what is on the screen, so each returns the accesses that it makes to video memory, in
order, and a memory after accesses is `Access.run`. Offsets are from the start of the frame buffer.
`put_pixel` computes its offset with 32-bit numbers, which wrap. The offsets of `scroll_rows` are
`usize`. A pixel is stored with its lowest byte first.
-/

namespace Ralix.Drivers

open Gfx Mm
open Dtb (SimpleFbInfo)

/-- Video memory, by offsets from its start. -/
abbrev Vram := ℕ → UInt8

/-- An access to video memory. -/
inductive Access where
  /-- `write_volatile` of a pixel. -/
  | store (offset : ℕ) (color : UInt32)
  /-- `core::ptr::copy`, which allows for overlaps. -/
  | copy (src dst len : ℕ)

/-- A byte of a pixel. -/
def pixelByte (color : UInt32) (k : ℕ) : UInt8 := (color >>> UInt32.ofNat (8 * k)).toUInt8

/-- The pixel at an offset. -/
def Vram.load (mem : Vram) (offset : ℕ) : UInt32 :=
  (mem (offset + 3)).toUInt32 <<< 24 ||| (mem (offset + 2)).toUInt32 <<< 16 |||
    (mem (offset + 1)).toUInt32 <<< 8 ||| (mem offset).toUInt32

/-- The memory after an access. -/
def Access.apply (mem : Vram) : Access → Vram
  | store offset color => fun a =>
    if offset ≤ a ∧ a < offset + 4 then pixelByte color (a - offset) else mem a
  | copy src dst len => fun a => if dst ≤ a ∧ a < dst + len then mem (src + (a - dst)) else mem a

/-- The memory after some accesses. -/
def Access.run (mem : Vram) (as : List Access) : Vram := as.foldl Access.apply mem

/-- The offsets that an access writes to. -/
def Access.Writes (offset : ℕ) : Access → Prop
  | store start _ => start ≤ offset ∧ offset < start + 4
  | copy _ dst len => dst ≤ offset ∧ offset < dst + len

/-- The offsets that an access reads. -/
def Access.Reads (offset : ℕ) : Access → Prop
  | store _ _ => False
  | copy src _ len => src ≤ offset ∧ offset < src + len

/-- `Framebuffer`. -/
structure Framebuffer where
  ptr : ℕ
  width : UInt32
  height : UInt32
  pitch : UInt32

namespace Framebuffer

/-- `init_from_simplefb`. Both formats will do. -/
def initFromSimplefb (info : SimpleFbInfo) : Option Framebuffer :=
  if info.addr = 0 ∨ info.width = 0 ∨ info.height = 0 ∨ info.stride = 0 then none
  else
    match info.format with
    | .x8r8g8b8 | .a8r8g8b8 =>
      some ⟨physToVirt info.addr.toNat, info.width, info.height, info.stride⟩

/-- `put_pixel`. -/
def putPixel (fb : Framebuffer) (x y color : UInt32) : Access :=
  .store ((y * fb.pitch) + (x * 4)).toNat color

/-- `clear`. -/
def clear (fb : Framebuffer) (color : UInt32) : List Access :=
  (List.range fb.height.toNat).flatMap fun y =>
    (List.range fb.width.toNat).map fun x => fb.putPixel (UInt32.ofNat x) (UInt32.ofNat y) color

/-- `scroll_rows`. -/
def scrollRows (fb : Framebuffer) (rows : ℕ) (bg : UInt32) : List Access :=
  if rows = 0 then []
  else
    let height := fb.height.toNat
    if rows ≥ height then fb.clear bg
    else
      let bytesPerRow := fb.pitch.toNat
      let copy := .copy (rows * bytesPerRow) 0 ((height - rows) * bytesPerRow)
      let start := height - rows
      copy :: (List.range' start (height - start)).flatMap fun y =>
        (List.range fb.width.toNat).map fun x => .store (y * bytesPerRow + x * 4) bg

/-- `draw_char`. -/
def drawChar (fb : Framebuffer) (x y : ℕ) (c : UInt8) (fg bg : UInt32) : List Access :=
  (glyph c).zipIdx.flatMap fun (bits, row) =>
    let y0 := y + row * 2
    (List.range 2).flatMap fun dy =>
      let py := y0 + dy
      if py ≥ fb.height.toNat then []
      else
        (List.range 8).flatMap fun col =>
          let px := x + col
          if px ≥ fb.width.toNat then []
          else
            let on := (bits >>> UInt8.ofNat (7 - col)) &&& 1 ≠ 0
            [fb.putPixel (UInt32.ofNat px) (UInt32.ofNat py) (if on then fg else bg)]

end Framebuffer

/-- `Console`. -/
structure Console where
  fb : Framebuffer
  col : ℕ
  row : ℕ
  cols : ℕ
  rows : ℕ
  fg : UInt32
  bg : UInt32

namespace Console

/-- `Console::new`. -/
def new (fb : Framebuffer) (fg bg : UInt32) : Console where
  fb := fb
  col := 0
  row := 0
  cols := max (fb.width.toNat / fontWidth) 1
  rows := max (fb.height.toNat / fontHeight) 1
  fg := fg
  bg := bg

/-- `newline`. -/
def newline (c : Console) : List Access × Console :=
  let row := c.row + 1
  if row ≥ c.rows then
    (c.fb.scrollRows fontHeight c.bg, { c with col := 0, row := c.rows - 1 })
  else ([], { c with col := 0, row })

/-- `put_char`. -/
def putChar (c : Console) (b : UInt8) : List Access × Console :=
  if b = 0x0a then c.newline
  else
    let x := c.col * fontWidth
    let y := c.row * fontHeight
    let draw := c.fb.drawChar x y b c.fg c.bg
    let c := { c with col := c.col + 1 }
    if c.col ≥ c.cols then
      let (scroll, c) := c.newline
      (draw ++ scroll, c)
    else (draw, c)

/-- `write_byte`. -/
def writeByte (c : Console) (b : UInt8) : List Access × Console := c.putChar b

/-- `write_byte` for one byte after another. -/
def writeBytes : Console → List UInt8 → List Access × Console
  | c, [] => ([], c)
  | c, b :: bytes =>
    let (first, c) := c.writeByte b
    let (rest, c) := writeBytes c bytes
    (first ++ rest, c)

end Console

end Ralix.Drivers
