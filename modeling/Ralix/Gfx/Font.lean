import Mathlib.Data.List.GetD

/-!
# The font

The table of `src/gfx/font.rs`: for each ASCII character eight rows of eight pixels, the leftmost in
the highest bit. Characters beyond ASCII look like a question mark.
-/

namespace Ralix.Gfx

/-- `FONT_WIDTH`, in pixels. -/
def fontWidth : ℕ := 8

/-- `FONT_HEIGHT`, in pixels. A row of the table is two pixels high. -/
def fontHeight : ℕ := 16

/-- `FONT`. -/
def font : List (List UInt8) :=
  [[0x00, 0x00, 0x00, 0x00, 0x00, 0x00, 0x00, 0x00],
   [0x00, 0x00, 0x00, 0x00, 0x00, 0x00, 0x00, 0x00],
   [0x00, 0x00, 0x00, 0x00, 0x00, 0x00, 0x00, 0x00],
   [0x00, 0x00, 0x00, 0x00, 0x00, 0x00, 0x00, 0x00],
   [0x00, 0x00, 0x00, 0x00, 0x00, 0x00, 0x00, 0x00],
   [0x00, 0x00, 0x00, 0x00, 0x00, 0x00, 0x00, 0x00],
   [0x00, 0x00, 0x00, 0x00, 0x00, 0x00, 0x00, 0x00],
   [0x00, 0x00, 0x00, 0x00, 0x00, 0x00, 0x00, 0x00],
   [0x00, 0x00, 0x00, 0x00, 0x00, 0x00, 0x00, 0x00],
   [0x00, 0x00, 0x00, 0x00, 0x00, 0x00, 0x00, 0x00],
   [0x00, 0x00, 0x00, 0x00, 0x00, 0x00, 0x00, 0x00],
   [0x00, 0x00, 0x00, 0x00, 0x00, 0x00, 0x00, 0x00],
   [0x00, 0x00, 0x00, 0x00, 0x00, 0x00, 0x00, 0x00],
   [0x00, 0x00, 0x00, 0x00, 0x00, 0x00, 0x00, 0x00],
   [0x00, 0x00, 0x00, 0x00, 0x00, 0x00, 0x00, 0x00],
   [0x00, 0x00, 0x00, 0x00, 0x00, 0x00, 0x00, 0x00],
   [0x00, 0x00, 0x00, 0x00, 0x00, 0x00, 0x00, 0x00],
   [0x00, 0x00, 0x00, 0x00, 0x00, 0x00, 0x00, 0x00],
   [0x00, 0x00, 0x00, 0x00, 0x00, 0x00, 0x00, 0x00],
   [0x00, 0x00, 0x00, 0x00, 0x00, 0x00, 0x00, 0x00],
   [0x00, 0x00, 0x00, 0x00, 0x00, 0x00, 0x00, 0x00],
   [0x00, 0x00, 0x00, 0x00, 0x00, 0x00, 0x00, 0x00],
   [0x00, 0x00, 0x00, 0x00, 0x00, 0x00, 0x00, 0x00],
   [0x00, 0x00, 0x00, 0x00, 0x00, 0x00, 0x00, 0x00],
   [0x00, 0x00, 0x00, 0x00, 0x00, 0x00, 0x00, 0x00],
   [0x00, 0x00, 0x00, 0x00, 0x00, 0x00, 0x00, 0x00],
   [0x00, 0x00, 0x00, 0x00, 0x00, 0x00, 0x00, 0x00],
   [0x00, 0x00, 0x00, 0x00, 0x00, 0x00, 0x00, 0x00],
   [0x00, 0x00, 0x00, 0x00, 0x00, 0x00, 0x00, 0x00],
   [0x00, 0x00, 0x00, 0x00, 0x00, 0x00, 0x00, 0x00],
   [0x00, 0x00, 0x00, 0x00, 0x00, 0x00, 0x00, 0x00],
   [0x00, 0x00, 0x00, 0x00, 0x00, 0x00, 0x00, 0x00],
   [0x00, 0x00, 0x00, 0x00, 0x00, 0x00, 0x00, 0x00],
   [0x00, 0x10, 0x10, 0x10, 0x10, 0x00, 0x10, 0x00],
   [0x00, 0x28, 0x28, 0x00, 0x00, 0x00, 0x00, 0x00],
   [0x00, 0x18, 0x3C, 0x28, 0x30, 0x78, 0x50, 0x00],
   [0x00, 0x10, 0x7C, 0x50, 0x38, 0x14, 0x7C, 0x10],
   [0x00, 0x70, 0x50, 0x74, 0x3C, 0x14, 0x1C, 0x00],
   [0x00, 0x1C, 0x10, 0x18, 0x2C, 0x28, 0x1C, 0x00],
   [0x00, 0x10, 0x10, 0x00, 0x00, 0x00, 0x00, 0x00],
   [0x00, 0x10, 0x20, 0x20, 0x20, 0x20, 0x20, 0x10],
   [0x00, 0x20, 0x20, 0x10, 0x10, 0x10, 0x20, 0x20],
   [0x00, 0x00, 0x10, 0x54, 0x38, 0x7C, 0x10, 0x00],
   [0x00, 0x00, 0x10, 0x10, 0x7C, 0x10, 0x10, 0x00],
   [0x00, 0x00, 0x00, 0x00, 0x00, 0x00, 0x10, 0x10],
   [0x00, 0x00, 0x00, 0x00, 0x7C, 0x00, 0x00, 0x00],
   [0x00, 0x00, 0x00, 0x00, 0x00, 0x10, 0x10, 0x00],
   [0x00, 0x08, 0x10, 0x10, 0x30, 0x20, 0x20, 0x40],
   [0x00, 0x10, 0x28, 0x28, 0x38, 0x28, 0x10, 0x00],
   [0x00, 0x30, 0x10, 0x10, 0x10, 0x10, 0x38, 0x00],
   [0x00, 0x38, 0x04, 0x04, 0x08, 0x10, 0x3C, 0x00],
   [0x00, 0x38, 0x04, 0x04, 0x18, 0x04, 0x3C, 0x00],
   [0x00, 0x08, 0x18, 0x18, 0x28, 0x3C, 0x08, 0x00],
   [0x00, 0x3C, 0x20, 0x38, 0x04, 0x04, 0x38, 0x00],
   [0x00, 0x1C, 0x30, 0x20, 0x3C, 0x24, 0x1C, 0x00],
   [0x00, 0x3C, 0x04, 0x08, 0x08, 0x08, 0x10, 0x00],
   [0x00, 0x18, 0x24, 0x24, 0x18, 0x24, 0x3C, 0x00],
   [0x00, 0x38, 0x24, 0x3C, 0x04, 0x0C, 0x38, 0x00],
   [0x00, 0x00, 0x00, 0x10, 0x00, 0x00, 0x10, 0x00],
   [0x00, 0x00, 0x00, 0x10, 0x00, 0x10, 0x10, 0x10],
   [0x00, 0x00, 0x00, 0x04, 0x38, 0x30, 0x0C, 0x00],
   [0x00, 0x00, 0x00, 0x78, 0x00, 0x78, 0x00, 0x00],
   [0x00, 0x00, 0x00, 0x20, 0x1C, 0x0C, 0x30, 0x00],
   [0x00, 0x38, 0x18, 0x10, 0x10, 0x00, 0x10, 0x00],
   [0x00, 0x38, 0x24, 0x5C, 0x64, 0x64, 0x5C, 0x38],
   [0x00, 0x18, 0x18, 0x28, 0x24, 0x3C, 0x24, 0x00],
   [0x00, 0x38, 0x28, 0x30, 0x28, 0x28, 0x38, 0x00],
   [0x00, 0x1C, 0x20, 0x20, 0x20, 0x20, 0x1C, 0x00],
   [0x00, 0x38, 0x24, 0x24, 0x24, 0x24, 0x38, 0x00],
   [0x00, 0x3C, 0x20, 0x3C, 0x20, 0x20, 0x3C, 0x00],
   [0x00, 0x3C, 0x20, 0x38, 0x20, 0x20, 0x20, 0x00],
   [0x00, 0x1C, 0x20, 0x20, 0x2C, 0x24, 0x1C, 0x00],
   [0x00, 0x28, 0x28, 0x38, 0x28, 0x28, 0x28, 0x00],
   [0x00, 0x38, 0x10, 0x10, 0x10, 0x10, 0x38, 0x00],
   [0x00, 0x18, 0x08, 0x08, 0x08, 0x08, 0x38, 0x00],
   [0x00, 0x28, 0x28, 0x30, 0x30, 0x28, 0x28, 0x00],
   [0x00, 0x20, 0x20, 0x20, 0x20, 0x20, 0x3C, 0x00],
   [0x00, 0x48, 0x48, 0x78, 0x48, 0x48, 0x48, 0x00],
   [0x00, 0x48, 0x68, 0x68, 0x68, 0x58, 0x48, 0x00],
   [0x00, 0x18, 0x24, 0x24, 0x24, 0x24, 0x18, 0x00],
   [0x00, 0x3C, 0x24, 0x3C, 0x20, 0x20, 0x20, 0x00],
   [0x00, 0x18, 0x24, 0x24, 0x24, 0x24, 0x18, 0x04],
   [0x00, 0x3C, 0x24, 0x38, 0x2C, 0x24, 0x22, 0x00],
   [0x00, 0x1C, 0x20, 0x38, 0x0C, 0x04, 0x3C, 0x00],
   [0x00, 0x7C, 0x10, 0x10, 0x10, 0x10, 0x10, 0x00],
   [0x00, 0x24, 0x24, 0x24, 0x24, 0x24, 0x18, 0x00],
   [0x00, 0x24, 0x24, 0x18, 0x18, 0x18, 0x18, 0x00],
   [0x00, 0x44, 0x44, 0x54, 0x28, 0x28, 0x28, 0x00],
   [0x00, 0x24, 0x1C, 0x18, 0x18, 0x24, 0x24, 0x00],
   [0x00, 0x44, 0x28, 0x10, 0x10, 0x10, 0x10, 0x00],
   [0x00, 0x3C, 0x08, 0x08, 0x10, 0x10, 0x3C, 0x00],
   [0x18, 0x10, 0x10, 0x10, 0x10, 0x10, 0x10, 0x18],
   [0x00, 0x40, 0x20, 0x20, 0x30, 0x10, 0x10, 0x08],
   [0x30, 0x10, 0x10, 0x10, 0x10, 0x10, 0x10, 0x30],
   [0x00, 0x10, 0x38, 0x48, 0x00, 0x00, 0x00, 0x00],
   [0x00, 0x00, 0x00, 0x00, 0x00, 0x00, 0x00, 0x00],
   [0x00, 0x20, 0x00, 0x00, 0x00, 0x00, 0x00, 0x00],
   [0x00, 0x00, 0x00, 0x3C, 0x3C, 0x24, 0x3C, 0x00],
   [0x20, 0x20, 0x20, 0x38, 0x24, 0x24, 0x38, 0x00],
   [0x00, 0x00, 0x00, 0x18, 0x20, 0x20, 0x18, 0x00],
   [0x04, 0x04, 0x04, 0x1C, 0x24, 0x24, 0x1C, 0x00],
   [0x00, 0x00, 0x30, 0x48, 0x78, 0x40, 0x38, 0x00],
   [0x0C, 0x10, 0x10, 0x3C, 0x10, 0x10, 0x10, 0x00],
   [0x00, 0x00, 0x00, 0x1C, 0x24, 0x24, 0x1C, 0x04],
   [0x20, 0x20, 0x20, 0x3C, 0x24, 0x24, 0x24, 0x00],
   [0x00, 0x10, 0x30, 0x10, 0x10, 0x10, 0x38, 0x00],
   [0x10, 0x00, 0x00, 0x30, 0x10, 0x10, 0x10, 0x10],
   [0x20, 0x20, 0x20, 0x24, 0x38, 0x38, 0x2C, 0x00],
   [0x00, 0x30, 0x10, 0x10, 0x10, 0x10, 0x1C, 0x00],
   [0x00, 0x00, 0x00, 0x3E, 0x2A, 0x2A, 0x2A, 0x00],
   [0x00, 0x00, 0x00, 0x3C, 0x24, 0x24, 0x24, 0x00],
   [0x00, 0x00, 0x00, 0x18, 0x24, 0x24, 0x18, 0x00],
   [0x00, 0x00, 0x00, 0x38, 0x24, 0x24, 0x38, 0x20],
   [0x00, 0x00, 0x00, 0x1C, 0x24, 0x24, 0x1C, 0x04],
   [0x00, 0x00, 0x00, 0x38, 0x20, 0x20, 0x20, 0x00],
   [0x00, 0x00, 0x00, 0x3C, 0x38, 0x04, 0x3C, 0x00],
   [0x00, 0x00, 0x10, 0x3C, 0x10, 0x10, 0x1C, 0x00],
   [0x00, 0x00, 0x00, 0x24, 0x24, 0x24, 0x3C, 0x00],
   [0x00, 0x00, 0x00, 0x24, 0x18, 0x18, 0x18, 0x00],
   [0x00, 0x00, 0x00, 0x44, 0x74, 0x28, 0x28, 0x00],
   [0x00, 0x00, 0x00, 0x3C, 0x18, 0x18, 0x3C, 0x00],
   [0x00, 0x00, 0x00, 0x24, 0x18, 0x18, 0x10, 0x10],
   [0x00, 0x00, 0x00, 0x3C, 0x18, 0x10, 0x3C, 0x00],
   [0x18, 0x10, 0x10, 0x10, 0x20, 0x10, 0x10, 0x18],
   [0x00, 0x10, 0x10, 0x10, 0x10, 0x10, 0x10, 0x10],
   [0x30, 0x10, 0x10, 0x10, 0x08, 0x10, 0x10, 0x30],
   [0x00, 0x00, 0x00, 0x20, 0x54, 0x08, 0x00, 0x00],
   [0x00, 0x00, 0x00, 0x00, 0x00, 0x00, 0x00, 0x00]]

/-- `glyph`. -/
def glyph (c : UInt8) : List UInt8 :=
  if c < 128 then font.getD c.toNat [] else font.getD 0x3f []

/-- The table has an entry for every ASCII character. -/
theorem length_font : font.length = 128 := by decide +kernel

/-- Every entry has eight rows. -/
theorem length_of_mem_font {rows : List UInt8} (h : rows ∈ font) : rows.length = 8 := by
  have hall : ∀ rows ∈ font, rows.length = 8 := by decide +kernel
  exact hall rows h

/-- Every glyph has eight rows. -/
theorem length_glyph (c : UInt8) : (glyph c).length = 8 := by
  have hentry : ∀ i < 128, (font.getD i []).length = 8 := by
    intro i hi
    rw [List.getD_eq_getElem _ _ (by rw [length_font]; exact hi)]
    exact length_of_mem_font (List.getElem_mem _)
  unfold glyph
  split
  · rename_i hlt
    exact hentry _ (UInt8.lt_iff_toNat_lt.mp hlt)
  · exact hentry _ (by decide)

end Ralix.Gfx
