import Mathlib.Data.List.Basic
import Ralix.Lib.Exec
import Ralix.Lib.Word

/-!
# Device tree blobs

The readers of `src/mm/dtb.rs` that all its functions share, and the two blocks of a blob. Blocks and
values are lists of bytes. Every access to one is checked, so a reader here stops where the source
would panic. The lengths of the blocks come from 32-bit fields of the header, so sums of offsets and
lengths do not wrap in 64 bits. Cell counts are 32-bit numbers, and sums of them do wrap.
-/

namespace Ralix.Dtb

open Lib

/-- A slice of bytes. -/
abbrev Bytes := List UInt8

/-- A byte string literal. -/
def ascii (s : String) : Bytes := s.toList.map fun c => c.toNat.toUInt8

/-- `read_be_u32`. -/
def readBeU32 (buf : Bytes) : Exec UInt32 := do
  let b0 ← index buf 0
  let b1 ← index buf 1
  let b2 ← index buf 2
  let b3 ← index buf 3
  return b0.toUInt32 <<< 24 ||| b1.toUInt32 <<< 16 ||| b2.toUInt32 <<< 8 ||| b3.toUInt32

/-- `align4`. -/
def align4 (value : ℕ) : ℕ := wadd value 3 &&& wnot 3

/-- The loop that looks for a NUL from `i` on: `while i < buf.len() && buf[i] != 0 { i += 1 }`. There
are `n` bytes left. -/
def scanNul (buf : Bytes) : ℕ → ℕ → Exec ℕ
  | 0, i => .ok i
  | n + 1, i => do
    if (← index buf i) ≠ 0 then scanNul buf n (i + 1) else return i

/-- `get_string`. -/
def getString (strings : Bytes) (offset : ℕ) : Exec Bytes :=
  if offset ≥ strings.length then .ok []
  else do
    let stop ← scanNul strings (strings.length - offset) offset
    slice strings offset stop

/-- `name_starts_with`. -/
def nameStartsWith (name pre : Bytes) : Exec Bool :=
  if name.length < pre.length then .ok false
  else do
    return (← slice name 0 pre.length) == pre

/-- The loop of `read_cells`, with `n` cells left. -/
def readCellsLoop (buf : Bytes) : ℕ → ℕ → UInt64 → Exec UInt64
  | 0, _, value => .ok value
  | n + 1, i, value =>
    let start := i * 4
    if start + 4 > buf.length then .ok value
    else do
      let word ← slice buf start (start + 4) >>= readBeU32
      readCellsLoop buf n (i + 1) (value <<< 32 ||| word.toUInt64)

/-- `read_cells`. -/
def readCells (buf : Bytes) (cells : UInt32) : Exec UInt64 := readCellsLoop buf cells.toNat 0 0

/-- `read_cells_trunc`. -/
def readCellsTrunc (buf : Bytes) (cells : UInt32) : Exec UInt64 :=
  if cells ≤ 2 then readCells buf cells
  else
    let start := (cells.toNat - 2) * 4
    if start ≥ buf.length then .ok 0
    else do
      readCells (← slice buf start buf.length) 2

/-- `read_addr_cells`. -/
def readAddrCells (buf : Bytes) (cells : UInt32) : Exec UInt64 :=
  if cells > 2 then readCellsTrunc buf cells else readCells buf cells

/-- The loop of `value_has_string` from `start`, with at most `n` bytes left. -/
def valueHasStringLoop (buf needle : Bytes) : ℕ → ℕ → Exec Bool
  | 0, _ => .ok false
  | n + 1, start =>
    if start < buf.length then do
      let stop ← scanNul buf (buf.length - start) start
      if stop > start ∧ (← slice buf start stop) = needle then return true
      else valueHasStringLoop buf needle n (stop + 1)
    else .ok false

/-- `value_has_string`. -/
def valueHasString (buf needle : Bytes) : Exec Bool := valueHasStringLoop buf needle buf.length 0

/-- `DtbInfo`. -/
structure DtbInfo where
  totalSize : UInt32

/-- The struct block and the strings block of a blob, and its total size. -/
structure Blob where
  totalSize : UInt32
  structBlock : Bytes
  stringsBlock : Bytes
  struct_lt : structBlock.length < 2^32
  strings_lt : stringsBlock.length < 2^32

/-- Physical memory. -/
abbrev Memory := ℕ → UInt8

/-- The bytes of memory from an address on. -/
def Memory.bytes (mem : Memory) (addr len : ℕ) : Bytes := (List.range len).map fun i => mem (addr + i)

/-- A part of memory has its length. -/
@[simp] theorem Memory.length_bytes (mem : Memory) (addr len : ℕ) :
    (mem.bytes addr len).length = len := by
  simp [bytes]

/-- `FDT_MAGIC`. -/
def fdtMagic : UInt32 := 0xD00DFEED

def fdtBeginNode : UInt32 := 0x1
def fdtEndNode : UInt32 := 0x2
def fdtProp : UInt32 := 0x3
def fdtNop : UInt32 := 0x4
def fdtEnd : UInt32 := 0x9

/-- What every function of `dtb.rs` does first: it reads the header, and gives up unless that has the
magic number. -/
def readHeader (mem : Memory) (dtbPa : ℕ) : Exec (Option Blob) := do
  let header := mem.bytes dtbPa 40
  let magic ← slice header 0 4 >>= readBeU32
  if magic ≠ fdtMagic then return none
  else
    let totalSize ← slice header 4 8 >>= readBeU32
    let offDtStruct ← slice header 8 12 >>= readBeU32
    let offDtStrings ← slice header 12 16 >>= readBeU32
    let sizeDtStruct ← slice header 36 40 >>= readBeU32
    let sizeDtStrings ← slice header 32 36 >>= readBeU32
    return some
      { totalSize
        structBlock := mem.bytes (dtbPa + offDtStruct.toNat) sizeDtStruct.toNat
        stringsBlock := mem.bytes (dtbPa + offDtStrings.toNat) sizeDtStrings.toNat
        struct_lt := by rw [Memory.length_bytes]; exact sizeDtStruct.toNat_lt
        strings_lt := by rw [Memory.length_bytes]; exact sizeDtStrings.toNat_lt }

/-- Where the slices of an entry of some cells each lie in a value that is `len` bytes long, if the
sum of the cell counts is taken modulo `2^32`: the sum has not wrapped, or there is no entry to read.
-/
def CellsFit (cells : List UInt32) (len : ℕ) : Prop :=
  (cells.map UInt32.toNat).sum < 2^32 ∨ (cells.map UInt32.toNat).sum % 2^32 = 0 ∨
    len < (cells.map UInt32.toNat).sum % 2^32 * 4

instance (cells : List UInt32) (len : ℕ) : Decidable (CellsFit cells len) := by
  unfold CellsFit
  infer_instance

/-! ## The readers return -/

/-- `read_be_u32` needs four bytes. -/
theorem readBeU32_ok {buf : Bytes} (h : 4 ≤ buf.length) : ∃ x, readBeU32 buf = .ok x := by
  unfold readBeU32
  rw [index_ok (i := 0) (by omega), index_ok (i := 1) (by omega), index_ok (i := 2) (by omega),
    index_ok (i := 3) (by omega)]
  exact ⟨_, rfl⟩

/-- A 32-bit number in the block. -/
theorem slice_readBeU32_ok {buf : Bytes} {i : ℕ} (h : i + 4 ≤ buf.length) :
    ∃ x, (slice buf i (i + 4) >>= readBeU32) = .ok x := by
  rw [slice_ok (by omega) h, Exec.ok_bind]
  refine readBeU32_ok ?_
  rw [List.length_take, List.length_drop]
  omega

/-- `align4` rounds up to a multiple of four. -/
theorem align4_eq {value : ℕ} (h : value < 2^63) : align4 value = (value + 3) / 4 * 4 := by
  rw [align4, wadd_of_lt (by omega), show wnot 3 = 2^64 - 2^2 by decide,
    and_highMask (by omega) (by decide)]
  rfl

/-- The search for a NUL stops at the first one, or at the end. -/
theorem scanNul_eq {buf : Bytes} {n i : ℕ} (h : i + n = buf.length) :
    scanNul buf n i = .ok (i + ((buf.drop i).takeWhile (· ≠ 0)).length) := by
  induction n generalizing i with
  | zero =>
    rw [scanNul, List.drop_eq_nil_of_le (by omega)]
    rfl
  | succ n ih =>
    have hi : i < buf.length := by omega
    rw [scanNul, index_ok hi, Exec.ok_bind, List.drop_eq_getElem_cons hi]
    by_cases hz : buf[i] = 0
    · rw [if_neg (not_not.mpr hz), List.takeWhile_cons_of_neg (by simp [hz])]
      rfl
    · rw [if_pos hz, ih (by omega), List.takeWhile_cons_of_pos (by simp [hz]), List.length_cons]
      congr 1
      omega

/-- The search for a NUL stops in the array. -/
theorem scanNul_ok {buf : Bytes} {i : ℕ} (h : i ≤ buf.length) :
    ∃ stop, scanNul buf (buf.length - i) i = .ok stop ∧ i ≤ stop ∧ stop ≤ buf.length := by
  refine ⟨_, scanNul_eq (by omega), Nat.le_add_right _ _, ?_⟩
  have hle := (List.takeWhile_prefix (l := buf.drop i) (p := (· ≠ 0))).length_le
  rw [List.length_drop] at hle
  omega

/-- `get_string` returns for every offset. -/
theorem getString_ok (strings : Bytes) (offset : ℕ) : ∃ name, getString strings offset = .ok name := by
  unfold getString
  split
  · exact ⟨_, rfl⟩
  · obtain ⟨stop, hstop, hle, hlen⟩ := scanNul_ok (show offset ≤ strings.length by omega)
    rw [hstop, Exec.ok_bind, slice_ok hle hlen]
    exact ⟨_, rfl⟩

/-- `name_starts_with` decides whether one is a prefix of the other. -/
theorem nameStartsWith_eq (name pre : Bytes) : nameStartsWith name pre = .ok (pre.isPrefixOf name) := by
  unfold nameStartsWith
  by_cases hlt : name.length < pre.length
  · rw [if_pos hlt]
    have hnot : ¬ pre <+: name := fun h => absurd h.length_le (Nat.not_le.mpr hlt)
    rw [← List.isPrefixOf_iff_prefix] at hnot
    rw [Bool.not_eq_true] at hnot
    rw [hnot]
  · rw [if_neg hlt, slice_ok (Nat.zero_le _) (by omega), Exec.ok_bind, Exec.pure_eq, List.drop_zero,
      Nat.sub_zero]
    congr 1
    rw [Bool.eq_iff_iff, beq_iff_eq, List.isPrefixOf_iff_prefix, List.prefix_iff_eq_take]
    exact eq_comm

/-- The loop of `read_cells` returns. -/
theorem readCellsLoop_ok (buf : Bytes) (n i : ℕ) (value : UInt64) :
    ∃ x, readCellsLoop buf n i value = .ok x := by
  induction n generalizing i value with
  | zero => exact ⟨_, rfl⟩
  | succ n ih =>
    rw [readCellsLoop]
    split
    · exact ⟨_, rfl⟩
    · obtain ⟨word, hword⟩ := slice_readBeU32_ok (show i * 4 + 4 ≤ buf.length by omega)
      rw [hword, Exec.ok_bind]
      exact ih _ _

/-- `read_cells` returns for every buffer and number of cells. -/
theorem readCells_ok (buf : Bytes) (cells : UInt32) : ∃ x, readCells buf cells = .ok x :=
  readCellsLoop_ok buf _ _ _

/-- So does `read_cells_trunc`. -/
theorem readCellsTrunc_ok (buf : Bytes) (cells : UInt32) : ∃ x, readCellsTrunc buf cells = .ok x := by
  unfold readCellsTrunc
  dsimp only
  split
  · exact readCells_ok buf cells
  · split
    · exact ⟨_, rfl⟩
    · rw [slice_ok (by omega) le_rfl, Exec.ok_bind]
      exact readCells_ok _ _

/-- And so does `read_addr_cells`. -/
theorem readAddrCells_ok (buf : Bytes) (cells : UInt32) : ∃ x, readAddrCells buf cells = .ok x := by
  unfold readAddrCells
  split
  · exact readCellsTrunc_ok buf cells
  · exact readCells_ok buf cells

/-- `value_has_string` returns. -/
theorem valueHasStringLoop_ok (buf needle : Bytes) (n start : ℕ) :
    ∃ x, valueHasStringLoop buf needle n start = .ok x := by
  induction n generalizing start with
  | zero => exact ⟨_, rfl⟩
  | succ n ih =>
    rw [valueHasStringLoop]
    split
    · obtain ⟨stop, hstop, hle, hlen⟩ := scanNul_ok (show start ≤ buf.length by omega)
      rw [hstop, Exec.ok_bind, slice_ok hle hlen, Exec.ok_bind]
      split
      · exact ⟨_, rfl⟩
      · exact ih _
    · exact ⟨_, rfl⟩

/-- The header of every blob is read. -/
theorem readHeader_ok (mem : Memory) (dtbPa : ℕ) : ∃ b, readHeader mem dtbPa = .ok b := by
  have hread : ∀ i, i + 4 ≤ 40 → ∃ x, (slice (mem.bytes dtbPa 40) i (i + 4) >>= readBeU32) = .ok x := by
    intro i hi
    refine slice_readBeU32_ok ?_
    rwa [Memory.length_bytes]
  obtain ⟨magic, h0⟩ := hread 0 (by decide)
  obtain ⟨totalSize, h4⟩ := hread 4 (by decide)
  obtain ⟨offDtStruct, h8⟩ := hread 8 (by decide)
  obtain ⟨offDtStrings, h12⟩ := hread 12 (by decide)
  obtain ⟨sizeDtStrings, h32⟩ := hread 32 (by decide)
  obtain ⟨sizeDtStruct, h36⟩ := hread 36 (by decide)
  unfold readHeader
  simp only [h0, h4, h8, h12, h32, h36, Exec.ok_bind]
  split
  · exact ⟨_, rfl⟩
  · exact ⟨_, rfl⟩

end Ralix.Dtb
