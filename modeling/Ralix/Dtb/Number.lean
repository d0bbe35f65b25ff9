import Mathlib.Data.List.Induction
import Mathlib.Data.Nat.Digits.Defs
import Mathlib.Tactic.Ring
import Ralix.Dtb.Blob

/-!
# Numbers in property values

The number that bytes stand for, most significant byte first (`number`), and what the readers of
`src/mm/dtb.rs` compute of it: `read_be_u32` the first four bytes, and `read_cells`,
`read_cells_trunc`, and `read_addr_cells` the number of all cells modulo `2^64`. The three agree on
any number of cells: dropping all but the last two cells, as two of them do, and shifting the others
out, as the third one does, come to the same.
-/

namespace Ralix.Dtb

open Lib

/-- The number that the bytes stand for. -/
def number (bytes : Bytes) : ℕ := bytes.foldl (fun n b => n * 2^8 + b.toNat) 0

/-- The bytes as a 32-bit number. -/
def word32 (bytes : Bytes) : UInt32 := UInt32.ofNat (number bytes)

/-- The bytes as a 64-bit number. -/
def word64 (bytes : Bytes) : UInt64 := UInt64.ofNat (number bytes)

/-- The number of bytes after another byte. -/
theorem number_concat (bytes : Bytes) (b : UInt8) :
    number (bytes ++ [b]) = number bytes * 2^8 + b.toNat := by
  rw [number, List.foldl_append]
  rfl

/-- The number of two parts. -/
theorem number_append (bytes bytes' : Bytes) :
    number (bytes ++ bytes') = number bytes * 2^(8 * bytes'.length) + number bytes' := by
  induction bytes' using List.reverseRecOn with
  | nil => simp [number]
  | append_singleton bytes' b ih =>
    rw [← List.append_assoc, number_concat, ih, number_concat, List.length_append,
      List.length_singleton, Nat.mul_add, Nat.pow_add]
    ring

/-- The bytes are the digits of their number in base 256, the last one being the lowest. -/
theorem number_eq_ofDigits (bytes : Bytes) :
    number bytes = Nat.ofDigits 256 (bytes.reverse.map UInt8.toNat) := by
  induction bytes using List.reverseRecOn with
  | nil => rfl
  | append_singleton bytes b ih =>
    rw [number_concat, ih, List.reverse_concat, List.map_cons, Nat.ofDigits_cons]
    ring

/-- The number of some bytes is that of their bits. -/
theorem number_lt (bytes : Bytes) : number bytes < 2^(8 * bytes.length) := by
  induction bytes using List.reverseRecOn with
  | nil => decide
  | append_singleton bytes b ih =>
    have hb := b.toNat_lt
    rw [number_concat, List.length_append, List.length_singleton, Nat.mul_add, Nat.pow_add]
    omega

/-- The number in four bytes. -/
theorem be32_value (b0 b1 b2 b3 : UInt8) :
    (b0.toUInt32 <<< 24 ||| b1.toUInt32 <<< 16 ||| b2.toUInt32 <<< 8 ||| b3.toUInt32).toNat =
      b0.toNat * 2^24 + b1.toNat * 2^16 + b2.toNat * 2^8 + b3.toNat := by
  have h0 := b0.toNat_lt
  have h1 := b1.toNat_lt
  have h2 := b2.toNat_lt
  have h3 := b3.toNat_lt
  -- no shift loses a bit, and the shifted bytes do not overlap
  have e0 : (b0.toUInt32 <<< 24).toNat = b0.toNat * 2^24 := by
    rw [UInt32.toNat_shiftLeft, UInt8.toNat_toUInt32]
    show b0.toNat <<< 24 % 2^32 = _
    rw [Nat.shiftLeft_eq]
    omega
  have e1 : (b1.toUInt32 <<< 16).toNat = b1.toNat * 2^16 := by
    rw [UInt32.toNat_shiftLeft, UInt8.toNat_toUInt32]
    show b1.toNat <<< 16 % 2^32 = _
    rw [Nat.shiftLeft_eq]
    omega
  have e2 : (b2.toUInt32 <<< 8).toNat = b2.toNat * 2^8 := by
    rw [UInt32.toNat_shiftLeft, UInt8.toNat_toUInt32]
    show b2.toNat <<< 8 % 2^32 = _
    rw [Nat.shiftLeft_eq]
    omega
  have s1 : b0.toNat * 2^24 ||| b1.toNat * 2^16 = b0.toNat * 2^24 + b1.toNat * 2^16 :=
    or_low (k := 24) (by omega) (by omega)
  have s2 : b0.toNat * 2^24 + b1.toNat * 2^16 ||| b2.toNat * 2^8 =
      b0.toNat * 2^24 + b1.toNat * 2^16 + b2.toNat * 2^8 := or_low (k := 16) (by omega) (by omega)
  rw [UInt32.toNat_or, UInt32.toNat_or, UInt32.toNat_or, e0, e1, e2, UInt8.toNat_toUInt32, s1, s2]
  exact or_low (k := 8) (by omega) (by omega)

/-- `read_be_u32` reads the first four bytes. -/
theorem readBeU32_eq {buf : Bytes} (h : 4 ≤ buf.length) : readBeU32 buf = .ok (word32 (buf.take 4)) := by
  match buf, h with
  | b0 :: b1 :: b2 :: b3 :: rest, _ =>
    have h0 := b0.toNat_lt
    have h1 := b1.toNat_lt
    have h2 := b2.toNat_lt
    have h3 := b3.toNat_lt
    have hnumber : number [b0, b1, b2, b3] =
        b0.toNat * 2^24 + b1.toNat * 2^16 + b2.toNat * 2^8 + b3.toNat := by
      simp only [number, List.foldl_cons, List.foldl_nil]
      omega
    show Except.ok _ = Except.ok (word32 [b0, b1, b2, b3])
    congr 1
    rw [← UInt32.toNat_inj, be32_value, word32, hnumber]
    refine (UInt32.toNat_ofNat_of_lt' ?_).symm
    show _ < 2^32
    omega

/-- A cell shifted in from the right. -/
theorem shift_or (n : ℕ) (w : UInt32) :
    UInt64.ofNat n <<< 32 ||| w.toUInt64 = UInt64.ofNat (n * 2^32 + w.toNat) := by
  have hw := w.toNat_lt
  have hshift : (UInt64.ofNat n <<< 32).toNat = n % 2^32 * 2^32 := by
    rw [UInt64.toNat_shiftLeft, UInt64.toNat_ofNat']
    show (n % 2^64) <<< 32 % 2^64 = _
    rw [Nat.shiftLeft_eq]
    omega
  rw [← UInt64.toNat_inj, UInt64.toNat_or, hshift, UInt32.toNat_toUInt64, UInt64.toNat_ofNat',
    or_low (k := 32) (by omega) hw]
  omega

/-- The loop of `read_cells` reads the cells one after another. -/
theorem readCellsLoop_eq {buf : Bytes} {n i : ℕ} (h : i * 4 + n * 4 = buf.length) :
    readCellsLoop buf n i (word64 (buf.take (i * 4))) = .ok (word64 buf) := by
  induction n generalizing i with
  | zero =>
    rw [readCellsLoop, List.take_of_length_le (by omega)]
  | succ n ih =>
    have htake : buf.take ((i + 1) * 4) = buf.take (i * 4) ++ (buf.drop (i * 4)).take 4 := by
      rw [show (i + 1) * 4 = i * 4 + 4 by omega, List.take_add]
    have hlen : ((buf.drop (i * 4)).take 4).length = 4 := by
      rw [List.length_take, List.length_drop]
      omega
    have hword : (slice buf (i * 4) (i * 4 + 4) >>= readBeU32) =
        .ok (word32 ((buf.drop (i * 4)).take 4)) := by
      rw [slice_ok (by omega) (by omega), Exec.ok_bind, Nat.add_sub_cancel_left,
        readBeU32_eq (by omega), List.take_take]
      rfl
    have hlt := number_lt ((buf.drop (i * 4)).take 4)
    rw [hlen] at hlt
    have hvalue : word64 (buf.take (i * 4)) <<< 32 |||
        (word32 ((buf.drop (i * 4)).take 4)).toUInt64 = word64 (buf.take ((i + 1) * 4)) := by
      rw [word64, shift_or, word32, UInt32.toNat_ofNat_of_lt' hlt, htake, word64, number_append, hlen]
    rw [readCellsLoop, if_neg (by omega), hword, Exec.ok_bind, hvalue]
    exact ih (by omega)

/-- `read_cells` on as many cells as there are. -/
theorem readCells_eq {buf : Bytes} {cells : UInt32} (h : buf.length = cells.toNat * 4) :
    readCells buf cells = .ok (word64 buf) := by
  have hloop := readCellsLoop_eq (show 0 * 4 + cells.toNat * 4 = buf.length by omega)
  exact hloop

/-- The `k`-th entry fits into a value if the value has more entries. -/
theorem entry_fits_iff {len bytes k : ℕ} (hpos : 0 < bytes) :
    k * bytes + bytes ≤ len ↔ k < len / bytes := by
  rw [← Nat.succ_mul]
  exact (Nat.le_div_iff_mul_le hpos).symm

/-- All but the last eight bytes do not matter to a 64-bit number. -/
theorem word64_drop {buf : Bytes} {n : ℕ} (h : n + 8 = buf.length) :
    word64 (buf.drop n) = word64 buf := by
  have hlen : (buf.drop n).length = 8 := by
    rw [List.length_drop]
    omega
  rw [← UInt64.toNat_inj]
  conv_rhs => rw [← List.take_append_drop n buf]
  rw [word64, word64, UInt64.toNat_ofNat', UInt64.toNat_ofNat', number_append, hlen]
  omega

/-- `read_cells_trunc` on as many cells as there are. -/
theorem readCellsTrunc_eq {buf : Bytes} {cells : UInt32} (h : buf.length = cells.toNat * 4) :
    readCellsTrunc buf cells = .ok (word64 buf) := by
  unfold readCellsTrunc
  dsimp only
  by_cases hle : cells ≤ 2
  · rw [if_pos hle]
    exact readCells_eq h
  · rw [if_neg hle]
    have htwo : 2 < cells.toNat := by
      rw [UInt32.le_iff_toNat_le, Nat.not_le] at hle
      exact hle
    rw [if_neg (by omega), slice_ok (by omega) le_rfl, Exec.ok_bind, readCells_eq, List.take_of_length_le,
      word64_drop (by omega)]
    · rw [List.length_drop]
    · rw [List.length_take, List.length_drop]
      show min _ _ = 2 * 4
      omega

/-- `read_addr_cells` on as many cells as there are. -/
theorem readAddrCells_eq {buf : Bytes} {cells : UInt32} (h : buf.length = cells.toNat * 4) :
    readAddrCells buf cells = .ok (word64 buf) := by
  unfold readAddrCells
  split
  · exact readCellsTrunc_eq h
  · exact readCells_eq h

/-! ## Cells of a value -/

section Cut

variable {value cut : Bytes} {pos : ℕ} {cells : UInt32}

/-- Cells that were cut out of a value are as many bytes as they need. -/
theorem length_of_slice (h : slice value pos (pos + cells.toNat * 4) = .ok cut) :
    cut.length = cells.toNat * 4 := by
  obtain ⟨hle, hend, rfl⟩ := slice_eq_ok h
  rw [List.length_take, List.length_drop]
  omega

/-- It does not matter which of the readers reads cells that were cut out of a value. -/
theorem slice_readAddrCells (value : Bytes) (pos : ℕ) (cells : UInt32) :
    (slice value pos (pos + cells.toNat * 4) >>= fun cut => readAddrCells cut cells) =
      slice value pos (pos + cells.toNat * 4) >>= fun cut => readCells cut cells := by
  cases hcut : slice value pos (pos + cells.toNat * 4) with
  | error e => rfl
  | ok cut =>
    have hlen := length_of_slice hcut
    rw [Exec.ok_bind, Exec.ok_bind, readAddrCells_eq hlen, readCells_eq hlen]

end Cut

end Ralix.Dtb
