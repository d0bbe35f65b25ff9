import Mathlib.Algebra.Ring.Nat
import Mathlib.Logic.Function.Basic
import Mathlib.Tactic.Common

/-!
# Address translation

The walk of an MMU with 48 bits of virtual address and pages of 4 KiB, through tables in physical memory:
an entry is nothing, a pointer to the table of the next level, or the last of the walk, which maps a page
or a block. There are two roots, for the two halves of the address space.
-/

namespace Ralix.Lib

/-- A physical memory, as the doubleword at each address. -/
abbrev PhysMem := ℕ → ℕ

/-- Where a walk ends: a physical address, and the descriptor that maps it. -/
structure Translation where
  pa : ℕ
  desc : ℕ
deriving DecidableEq, Repr

namespace Translation

/-- The address bits below the index into a table, for the number of levels below that table. -/
def shift (level : ℕ) : ℕ := 12 + 9 * level

/-- The address of the entry of a table. -/
def entryAddr (level table va : ℕ) : ℕ := table + 8 * (va / 2^shift level % 512)

/-- The table that an entry points to. -/
def nextTable (entry : ℕ) : ℕ := entry / 2^12 % 2^36 * 2^12

/-- The last entry of a walk: what it maps an address to. -/
def last (level entry va : ℕ) : Translation :=
  ⟨entry / 2^shift level % 2^(48 - shift level) * 2^shift level + va % 2^shift level, entry⟩

/-- A walk from a table on, for the number of levels below it. Blocks end it one or two levels above
the pages. -/
def walk (mem : PhysMem) : ℕ → ℕ → ℕ → Option Translation
  | 0, table, va =>
    let entry := mem (entryAddr 0 table va)
    if entry % 4 = 3 then some (last 0 entry va) else none
  | level + 1, table, va =>
    let entry := mem (entryAddr (level + 1) table va)
    if entry % 4 = 3 then walk mem level (nextTable entry) va
    else if entry % 4 = 1 ∧ level < 2 then some (last (level + 1) entry va)
    else none

/-- The translation of a virtual address: by one root in the lower half of the address space, and by the
other in the upper. -/
def translate (mem : PhysMem) (low high va : ℕ) : Option Translation :=
  if va < 2^48 then walk mem 3 low va
  else if 2^64 - 2^48 ≤ va ∧ va < 2^64 then walk mem 3 high va
  else none

/-- The indices into the tables above the pages. -/
theorem entryAddr_one (table va : ℕ) : entryAddr 1 table va = table + 8 * (va / 2^21 % 512) := rfl
theorem entryAddr_two (table va : ℕ) : entryAddr 2 table va = table + 8 * (va / 2^30 % 512) := rfl
theorem entryAddr_three (table va : ℕ) : entryAddr 3 table va = table + 8 * (va / 2^39 % 512) := rfl

/-- A block of 2 MiB. -/
theorem last_one (entry va : ℕ) :
    last 1 entry va = ⟨entry / 2^21 % 2^27 * 2^21 + va % 2^21, entry⟩ := rfl

/-- A block of 1 GiB. -/
theorem last_two (entry va : ℕ) :
    last 2 entry va = ⟨entry / 2^30 % 2^18 * 2^30 + va % 2^30, entry⟩ := rfl

section Rules

variable {mem : PhysMem} {level table next entry va : ℕ}

/-- An entry that points to a table. -/
theorem walk_table (h : mem (entryAddr (level + 1) table va) = entry) (hdesc : entry % 4 = 3)
    (hnext : nextTable entry = next) : walk mem (level + 1) table va = walk mem level next va := by
  simp only [walk, h, if_pos hdesc, hnext]

/-- An entry that maps a block. -/
theorem walk_block (h : mem (entryAddr (level + 1) table va) = entry) (hdesc : entry % 4 = 1)
    (hlevel : level < 2) : walk mem (level + 1) table va = some (last (level + 1) entry va) := by
  simp only [walk, h]
  rw [if_neg (by omega), if_pos ⟨hdesc, hlevel⟩]

/-- An entry that is nothing. -/
theorem walk_invalid (h : mem (entryAddr level table va) = entry) (hdesc : entry % 2 = 0) :
    walk mem level table va = none := by
  cases level with
  | zero => simp only [walk, h]; rw [if_neg (by omega)]
  | succ level => simp only [walk, h]; rw [if_neg (by omega), if_neg (by omega)]

/-- A pointer to a table. -/
theorem nextTable_add {table : ℕ} (halign : table % 2^12 = 0) (hlt : table < 2^48) :
    nextTable (table + 3) = table := by
  unfold nextTable
  omega

end Rules

end Translation

end Ralix.Lib
