import Mathlib.Algebra.Ring.Nat
import Mathlib.Logic.Function.Basic
import Mathlib.Tactic.Common

/-!
# The allocator interface

The interface of a global allocator on a machine with 64-bit addresses: a `Layout` is a size and an
alignment that `Layout::from_size_align` has checked, a call into the allocator has a contract
(`HeapCall.Contract`), and the allocator's side of it is a map from the addresses of the blocks that
are allocated to their sizes and alignments. `HeapCall.effect` is what a call makes of that map for
the address that the allocator answers with, which is 0 if it fails.
-/

namespace Ralix.Lib

/-- `isize::MAX`. -/
def isizeMax : ℕ := 2^63 - 1

/-- A size rounded up to a multiple of an alignment. -/
def roundUp (size align : ℕ) : ℕ := (size + align - 1) / align * align

/-- The size and the alignment of a block. -/
structure Block where
  size : ℕ
  align : ℕ
deriving DecidableEq, Repr

/-- What `Layout::from_size_align` checks: the alignment is a power of two, and the size rounded up to
it does not pass `isize::MAX`. -/
def Block.Valid (b : Block) : Prop := (∃ k < 64, b.align = 2^k) ∧ roundUp b.size b.align ≤ isizeMax

instance (b : Block) : Decidable b.Valid := inferInstanceAs (Decidable (_ ∧ _))

/-- `Layout`. -/
structure Layout extends Block where
  valid : toBlock.Valid

/-- `Layout::from_size_align`. -/
def Layout.fromSizeAlign (size align : ℕ) : Option Layout :=
  if h : Block.Valid ⟨size, align⟩ then some ⟨⟨size, align⟩, h⟩ else none

/-- A layout that passes the check. -/
theorem Layout.fromSizeAlign_of_valid {size align : ℕ} (h : Block.Valid ⟨size, align⟩) :
    Layout.fromSizeAlign size align = some ⟨⟨size, align⟩, h⟩ := dif_pos h

/-- A layout that does not. -/
theorem Layout.fromSizeAlign_of_not_valid {size align : ℕ} (h : ¬ Block.Valid ⟨size, align⟩) :
    Layout.fromSizeAlign size align = none := dif_neg h

/-- A call into the allocator. -/
inductive HeapCall where
  | alloc (block : Block)
  | dealloc (ptr : BitVec 64) (block : Block)
  | realloc (ptr : BitVec 64) (block : Block) (newSize : ℕ)
deriving DecidableEq, Repr

namespace HeapCall

/-- The contract on the sizes and alignments of a call. -/
def Contract : HeapCall → Prop
  | alloc block => block.size ≠ 0 ∧ block.Valid
  | dealloc _ block => block.size ≠ 0 ∧ block.Valid
  | realloc _ block newSize =>
    (block.size ≠ 0 ∧ block.Valid) ∧ newSize ≠ 0 ∧ Block.Valid ⟨newSize, block.align⟩

instance (call : HeapCall) : Decidable call.Contract := by
  cases call <;> exact inferInstanceAs (Decidable (_ ∧ _))

end HeapCall

/-- The blocks that are allocated, by their addresses. -/
abbrev Blocks := BitVec 64 → Option Block

namespace HeapCall

/-- A call releases only a block that is allocated, with the size and the alignment that it has. -/
def Paired (live : Blocks) : HeapCall → Prop
  | alloc _ => True
  | dealloc ptr block => live ptr = some block
  | realloc ptr block _ => live ptr = some block

/-- What the allocator may answer: 0, or the address of a block that does not pass the end of the
address space, and that is not the address of another block. -/
def Answers (live : Blocks) : HeapCall → BitVec 64 → Prop
  | alloc block, ans => ans = 0 ∨ live ans = none ∧ ans.toNat + block.size < 2^64
  | dealloc _ _, _ => True
  | realloc ptr _ newSize, ans =>
    ans = 0 ∨ (ans = ptr ∨ live ans = none) ∧ ans.toNat + newSize < 2^64

/-- The blocks that are allocated after a call. A `realloc` that fails leaves the old block. -/
def effect (live : Blocks) : HeapCall → BitVec 64 → Blocks
  | alloc block, ans => if ans = 0 then live else Function.update live ans (some block)
  | dealloc ptr _, _ => Function.update live ptr none
  | realloc ptr block newSize, ans =>
    if ans = 0 then live
    else Function.update (Function.update live ptr none) ans (some ⟨newSize, block.align⟩)

end HeapCall

end Ralix.Lib
