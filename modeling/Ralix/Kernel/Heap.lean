import Ralix.Kernel.Vfs
import Ralix.Lib.GlobalAlloc

/-!
# The system calls for memory

The branches of `sync_handler` in `src/kernel/syscall.rs` for `SYSCALL_ALLOC`, `SYSCALL_REALLOC`, and
`SYSCALL_FREE`. The handler runs at EL1, so its calls into the global allocator go to the kernel heap.
A branch makes one such call at most, and what it does is its answer to the caller, or the call and
what becomes of the allocator's answer.

All sizes and alignments come from the caller. `heapChecked_iff` says when the handler has checked
them before it calls the allocator.
-/

namespace Ralix.Kernel

open Lib Arch

def syscallAlloc : BitVec 64 := 6
def syscallRealloc : BitVec 64 := 7
def syscallFree : BitVec 64 := 8

/-- What a branch of `sync_handler` does. -/
inductive HeapBranch where
  /-- It returns the frame. -/
  | done (frame : TrapFrame)
  /-- It calls the allocator, and returns a frame for the allocator's answer. -/
  | call (call : HeapCall) (resume : BitVec 64 → TrapFrame)

/-- The result in `x0` for a pointer from the allocator. -/
def pointerResult (ptr : BitVec 64) : BitVec 64 := if ptr = 0 then failure else ptr

/-- The `SYSCALL_ALLOC` branch of `sync_handler`. -/
def sysAlloc (frame : TrapFrame) : HeapBranch :=
  let size := (reg frame 0).toNat
  let align := (reg frame 1).toNat
  if size = 0 then .done (ret frame 0)
  else
    match Layout.fromSizeAlign size (max align 1) with
    | none => .done (ret frame failure)
    | some layout => .call (.alloc layout.toBlock) fun ptr => ret frame (pointerResult ptr)

/-- The `SYSCALL_REALLOC` branch of `sync_handler`, for a null pointer. -/
def sysReallocNull (frame : TrapFrame) : HeapBranch :=
  let newSize := (reg frame 2).toNat
  let align := (reg frame 3).toNat
  if newSize = 0 then .done (ret frame 0)
  else
    match Layout.fromSizeAlign newSize (max align 1) with
    | none => .done (ret frame failure)
    | some newLayout =>
      .call (.alloc newLayout.toBlock) fun newPtr => ret frame (pointerResult newPtr)

/-- The `SYSCALL_REALLOC` branch of `sync_handler`. -/
def sysRealloc (frame : TrapFrame) : HeapBranch :=
  let ptr := reg frame 0
  let oldSize := (reg frame 1).toNat
  let newSize := (reg frame 2).toNat
  let align := (reg frame 3).toNat
  match Layout.fromSizeAlign (max oldSize 1) (max align 1) with
  | none => .done (ret frame failure)
  | some layout =>
    if ptr = 0 then sysReallocNull frame
    else if newSize = 0 then .call (.dealloc ptr layout.toBlock) fun _ => ret frame 0
    else
      .call (.realloc ptr layout.toBlock newSize) fun newPtr => ret frame (pointerResult newPtr)

/-- The `SYSCALL_FREE` branch of `sync_handler`. -/
def sysFree (frame : TrapFrame) : HeapBranch :=
  let ptr := reg frame 0
  let size := (reg frame 1).toNat
  let align := (reg frame 2).toNat
  if ptr = 0 ∨ size = 0 then .done (ret frame 0)
  else
    match Layout.fromSizeAlign size (max align 1) with
    | none => .done (ret frame failure)
    | some layout => .call (.dealloc ptr layout.toBlock) fun _ => ret frame 0

/-- The number in `x8` is one of the three. -/
def HeapSyscall (frame : TrapFrame) : Prop :=
  reg frame 8 = syscallAlloc ∨ reg frame 8 = syscallRealloc ∨ reg frame 8 = syscallFree

/-- `sync_handler`, for the three numbers. -/
def sysHeap (frame : TrapFrame) : HeapBranch :=
  if reg frame 8 = syscallAlloc then sysAlloc frame
  else if reg frame 8 = syscallRealloc then sysRealloc frame
  else sysFree frame

/-! ## The contract of the calls -/

/-- The call that a frame asks for, if it asks for any. Nothing is asked for by a size of 0, a null
pointer to free, or a null pointer to reallocate to a size of 0. -/
def asks (frame : TrapFrame) : Option HeapCall :=
  if reg frame 8 = syscallAlloc then
    if (reg frame 0).toNat = 0 then none
    else some (.alloc ⟨(reg frame 0).toNat, max (reg frame 1).toNat 1⟩)
  else if reg frame 8 = syscallRealloc then
    if reg frame 0 = 0 then
      if (reg frame 2).toNat = 0 then none
      else some (.alloc ⟨(reg frame 2).toNat, max (reg frame 3).toNat 1⟩)
    else if (reg frame 2).toNat = 0 then
      some (.dealloc (reg frame 0) ⟨max (reg frame 1).toNat 1, max (reg frame 3).toNat 1⟩)
    else
      some (.realloc (reg frame 0) ⟨max (reg frame 1).toNat 1, max (reg frame 3).toNat 1⟩
        (reg frame 2).toNat)
  else if reg frame 0 = 0 ∨ (reg frame 1).toNat = 0 then none
  else some (.dealloc (reg frame 0) ⟨(reg frame 1).toNat, max (reg frame 2).toNat 1⟩)

/-- A call that the handler makes keeps the contract, and a frame that asks for another is refused. -/
structure HeapChecked (frame : TrapFrame) : Prop where
  made : ∀ call resume, sysHeap frame = .call call resume → call.Contract
  refused : ∀ call, asks frame = some call → ¬ call.Contract →
    sysHeap frame = .done (ret frame failure)

/-- The size that the handler does not check: that to which a block with a valid layout is to be
reallocated. -/
structure NewSizeUnchecked (frame : TrapFrame) : Prop where
  number : reg frame 8 = syscallRealloc
  ptr : reg frame 0 ≠ 0
  layout : Block.Valid ⟨max (reg frame 1).toNat 1, max (reg frame 3).toNat 1⟩
  size : (reg frame 2).toNat ≠ 0
  new : ¬ Block.Valid ⟨(reg frame 2).toNat, max (reg frame 3).toNat 1⟩

section Handler

variable {frame : TrapFrame}

/-- The handler for `SYSCALL_ALLOC`. -/
theorem sysHeap_alloc (h : reg frame 8 = syscallAlloc) : sysHeap frame = sysAlloc frame := if_pos h

/-- The handler for `SYSCALL_REALLOC`. -/
theorem sysHeap_realloc (h : reg frame 8 = syscallRealloc) : sysHeap frame = sysRealloc frame := by
  rw [sysHeap, if_neg (by rw [h]; decide), if_pos h]

/-- The handler for `SYSCALL_FREE`. -/
theorem sysHeap_free (h : reg frame 8 = syscallFree) : sysHeap frame = sysFree frame := by
  rw [sysHeap, if_neg (by rw [h]; decide), if_neg (by rw [h]; decide)]

/-- What `SYSCALL_ALLOC` does with a size: it makes the call exactly if the layout is valid. -/
theorem sysAlloc_cases (hsize : (reg frame 0).toNat ≠ 0) :
    let block : Block := ⟨(reg frame 0).toNat, max (reg frame 1).toNat 1⟩
    (block.Valid ∧ sysAlloc frame = .call (.alloc block) fun ptr => ret frame (pointerResult ptr)) ∨
      (¬ block.Valid ∧ sysAlloc frame = .done (ret frame failure)) := by
  intro block
  by_cases hvalid : block.Valid
  · refine .inl ⟨hvalid, ?_⟩
    simp only [sysAlloc, if_neg hsize, Layout.fromSizeAlign_of_valid hvalid]
    rfl
  · refine .inr ⟨hvalid, ?_⟩
    simp only [sysAlloc, if_neg hsize, Layout.fromSizeAlign_of_not_valid hvalid]

/-- What `SYSCALL_FREE` does with a pointer and a size: it makes the call exactly if the layout is
valid. -/
theorem sysFree_cases (h : ¬ (reg frame 0 = 0 ∨ (reg frame 1).toNat = 0)) :
    let block : Block := ⟨(reg frame 1).toNat, max (reg frame 2).toNat 1⟩
    (block.Valid ∧ sysFree frame = .call (.dealloc (reg frame 0) block) fun _ => ret frame 0) ∨
      (¬ block.Valid ∧ sysFree frame = .done (ret frame failure)) := by
  intro block
  by_cases hvalid : block.Valid
  · refine .inl ⟨hvalid, ?_⟩
    simp only [sysFree, if_neg h, Layout.fromSizeAlign_of_valid hvalid]
    rfl
  · refine .inr ⟨hvalid, ?_⟩
    simp only [sysFree, if_neg h, Layout.fromSizeAlign_of_not_valid hvalid]

/-- The block that `SYSCALL_REALLOC` is given. -/
def oldBlock (frame : TrapFrame) : Block :=
  ⟨max (reg frame 1).toNat 1, max (reg frame 3).toNat 1⟩

/-- `SYSCALL_REALLOC` of a block with a valid layout. -/
theorem sysRealloc_of_valid (h : (oldBlock frame).Valid) : sysRealloc frame =
    if reg frame 0 = 0 then sysReallocNull frame
    else if (reg frame 2).toNat = 0 then
      .call (.dealloc (reg frame 0) (oldBlock frame)) fun _ => ret frame 0
    else .call (.realloc (reg frame 0) (oldBlock frame) (reg frame 2).toNat)
      fun ptr => ret frame (pointerResult ptr) := by
  have hlayout := @Layout.fromSizeAlign_of_valid (max (reg frame 1).toNat 1)
    (max (reg frame 3).toNat 1) h
  unfold sysRealloc
  dsimp only
  rw [hlayout]
  rfl

/-- `SYSCALL_REALLOC` refuses a block without a valid layout. -/
theorem sysRealloc_invalid (h : ¬ (oldBlock frame).Valid) :
    sysRealloc frame = .done (ret frame failure) := by
  unfold sysRealloc
  dsimp only
  rw [@Layout.fromSizeAlign_of_not_valid (max (reg frame 1).toNat 1) (max (reg frame 3).toNat 1) h]

/-- `SYSCALL_REALLOC` of a null pointer to a size of 0 does nothing. -/
theorem sysRealloc_null_zero (h : (oldBlock frame).Valid) (hptr : reg frame 0 = 0)
    (hnew : (reg frame 2).toNat = 0) : sysRealloc frame = .done (ret frame 0) := by
  rw [sysRealloc_of_valid h, if_pos hptr, sysReallocNull, if_pos hnew]

/-- `SYSCALL_REALLOC` of a null pointer is an allocation, if the new layout is valid. -/
theorem sysRealloc_null (h : (oldBlock frame).Valid) (hptr : reg frame 0 = 0)
    (hnew : (reg frame 2).toNat ≠ 0) :
    let block : Block := ⟨(reg frame 2).toNat, max (reg frame 3).toNat 1⟩
    (block.Valid ∧
      sysRealloc frame = .call (.alloc block) fun ptr => ret frame (pointerResult ptr)) ∨
      (¬ block.Valid ∧ sysRealloc frame = .done (ret frame failure)) := by
  intro block
  by_cases hvalid : block.Valid
  · refine .inl ⟨hvalid, ?_⟩
    rw [sysRealloc_of_valid h, if_pos hptr]
    simp only [sysReallocNull, if_neg hnew, Layout.fromSizeAlign_of_valid hvalid]
    rfl
  · refine .inr ⟨hvalid, ?_⟩
    rw [sysRealloc_of_valid h, if_pos hptr]
    simp only [sysReallocNull, if_neg hnew, Layout.fromSizeAlign_of_not_valid hvalid]

/-- `SYSCALL_REALLOC` of a block to a size of 0 releases it. -/
theorem sysRealloc_zero (h : (oldBlock frame).Valid) (hptr : reg frame 0 ≠ 0)
    (hnew : (reg frame 2).toNat = 0) :
    sysRealloc frame = .call (.dealloc (reg frame 0) (oldBlock frame)) fun _ => ret frame 0 := by
  rw [sysRealloc_of_valid h, if_neg hptr, if_pos hnew]

/-- `SYSCALL_REALLOC` of a block to a size reallocates it, whatever the size. -/
theorem sysRealloc_move (h : (oldBlock frame).Valid) (hptr : reg frame 0 ≠ 0)
    (hnew : (reg frame 2).toNat ≠ 0) :
    sysRealloc frame = .call (.realloc (reg frame 0) (oldBlock frame) (reg frame 2).toNat)
      fun ptr => ret frame (pointerResult ptr) := by
  rw [sysRealloc_of_valid h, if_neg hptr, if_neg hnew]

/-- A block of at least one byte. -/
theorem oldBlock_size (frame : TrapFrame) : (oldBlock frame).size ≠ 0 := by
  show max _ 1 ≠ 0
  omega

/-! ## Which requests are checked -/

/-- The handler makes no other call than the one that is asked for. -/
theorem asks_of_call (h8 : HeapSyscall frame) {call : HeapCall} {resume : BitVec 64 → TrapFrame}
    (h : sysHeap frame = .call call resume) : asks frame = some call := by
  rcases h8 with h8 | h8 | h8
  · rw [sysHeap_alloc h8] at h
    rw [asks, if_pos h8]
    by_cases hsize : (reg frame 0).toNat = 0
    · simp only [sysAlloc, if_pos hsize] at h
      cases h
    · rw [if_neg hsize]
      rcases sysAlloc_cases hsize with ⟨-, hcall⟩ | ⟨-, hdone⟩
      · rw [hcall] at h
        cases h
        rfl
      · rw [hdone] at h
        cases h
  · rw [sysHeap_realloc h8] at h
    rw [asks, if_neg (by rw [h8]; decide), if_pos h8]
    -- The cases are those of the arm: the old layout, the pointer, and the new size.
    by_cases hold : (oldBlock frame).Valid
    swap
    · rw [sysRealloc_invalid hold] at h
      cases h
    by_cases hptr : reg frame 0 = 0
    · rw [if_pos hptr]
      by_cases hnew : (reg frame 2).toNat = 0
      · rw [sysRealloc_null_zero hold hptr hnew] at h
        cases h
      · rw [if_neg hnew]
        rcases sysRealloc_null hold hptr hnew with ⟨-, hcall⟩ | ⟨-, hdone⟩
        · rw [hcall] at h
          cases h
          rfl
        · rw [hdone] at h
          cases h
    · rw [if_neg hptr]
      by_cases hnew : (reg frame 2).toNat = 0
      · rw [sysRealloc_zero hold hptr hnew] at h
        cases h
        rw [if_pos hnew]
        rfl
      · rw [sysRealloc_move hold hptr hnew] at h
        cases h
        rw [if_neg hnew]
        rfl
  · rw [sysHeap_free h8] at h
    rw [asks, if_neg (by rw [h8]; decide), if_neg (by rw [h8]; decide)]
    by_cases hnone : reg frame 0 = 0 ∨ (reg frame 1).toNat = 0
    · simp only [sysFree, if_pos hnone] at h
      cases h
    · rw [if_neg hnone]
      rcases sysFree_cases hnone with ⟨-, hcall⟩ | ⟨-, hdone⟩
      · rw [hcall] at h
        cases h
        rfl
      · rw [hdone] at h
        cases h

/-- What becomes of the answer to a `realloc`. -/
theorem resume_of_realloc (h8 : HeapSyscall frame) {ptr : BitVec 64} {block : Block} {newSize : ℕ}
    {resume : BitVec 64 → TrapFrame} (h : sysHeap frame = .call (.realloc ptr block newSize) resume) :
    resume = fun ptr => ret frame (pointerResult ptr) := by
  have hasks := asks_of_call h8 h
  unfold asks at hasks
  -- Only one of the branches asks for a `realloc`.
  split_ifs at hasks with halloc hsize hrealloc hptr hnull hnew hnone <;> cases hasks
  rw [sysHeap_realloc hrealloc] at h
  by_cases hold : (oldBlock frame).Valid
  · rw [sysRealloc_move hold hptr hnew] at h
    cases h
    rfl
  · rw [sysRealloc_invalid hold] at h
    cases h

/-- A frame that is refused whenever it asks for a call that breaks the contract is checked. -/
theorem heapChecked_of_refused (h8 : HeapSyscall frame) (h : ∀ call, asks frame = some call →
    ¬ call.Contract → sysHeap frame = .done (ret frame failure)) : HeapChecked frame := by
  refine ⟨fun call resume hcall => ?_, h⟩
  by_contra hnot
  rw [h call (asks_of_call h8 hcall) hnot] at hcall
  cases hcall

/-- An allocation is checked. -/
theorem heapChecked_alloc (h8 : reg frame 8 = syscallAlloc) : HeapChecked frame := by
  refine heapChecked_of_refused (.inl h8) fun call hasks hnot => ?_
  rw [asks, if_pos h8] at hasks
  by_cases hsize : (reg frame 0).toNat = 0
  · rw [if_pos hsize] at hasks
    cases hasks
  · rw [if_neg hsize] at hasks
    cases hasks
    rw [sysHeap_alloc h8]
    rcases sysAlloc_cases hsize with ⟨hvalid, -⟩ | ⟨-, hdone⟩
    · exact absurd ⟨hsize, hvalid⟩ hnot
    · exact hdone

/-- A release is checked. -/
theorem heapChecked_free (h8 : reg frame 8 = syscallFree) : HeapChecked frame := by
  refine heapChecked_of_refused (.inr (.inr h8)) fun call hasks hnot => ?_
  rw [asks, if_neg (by rw [h8]; decide), if_neg (by rw [h8]; decide)] at hasks
  by_cases hnone : reg frame 0 = 0 ∨ (reg frame 1).toNat = 0
  · rw [if_pos hnone] at hasks
    cases hasks
  · rw [if_neg hnone] at hasks
    cases hasks
    rw [sysHeap_free h8]
    rcases sysFree_cases hnone with ⟨hvalid, -⟩ | ⟨-, hdone⟩
    · exact absurd ⟨fun hsize => hnone (.inr hsize), hvalid⟩ hnot
    · exact hdone

/-- A reallocation is checked, unless it is to a size that makes no valid layout. -/
theorem heapChecked_realloc (h8 : reg frame 8 = syscallRealloc) (hsizes : ¬ NewSizeUnchecked frame) :
    HeapChecked frame := by
  refine heapChecked_of_refused (.inr (.inl h8)) fun call hasks hnot => ?_
  rw [sysHeap_realloc h8]
  rw [asks, if_neg (by rw [h8]; decide), if_pos h8] at hasks
  by_cases hold : (oldBlock frame).Valid
  swap
  · exact sysRealloc_invalid hold
  by_cases hptr : reg frame 0 = 0
  · rw [if_pos hptr] at hasks
    by_cases hnew : (reg frame 2).toNat = 0
    · rw [if_pos hnew] at hasks
      cases hasks
    · rw [if_neg hnew] at hasks
      cases hasks
      rcases sysRealloc_null hold hptr hnew with ⟨hvalid, -⟩ | ⟨-, hdone⟩
      · exact absurd ⟨hnew, hvalid⟩ hnot
      · exact hdone
  · rw [if_neg hptr] at hasks
    by_cases hnew : (reg frame 2).toNat = 0
    · rw [if_pos hnew] at hasks
      cases hasks
      exact absurd ⟨oldBlock_size frame, hold⟩ hnot
    · rw [if_neg hnew] at hasks
      cases hasks
      by_cases hvalid : Block.Valid ⟨(reg frame 2).toNat, max (reg frame 3).toNat 1⟩
      · exact absurd ⟨⟨oldBlock_size frame, hold⟩, hnew, hvalid⟩ hnot
      · -- The route that does not check the new size.
        exact absurd ⟨h8, hptr, hold, hnew, hvalid⟩ hsizes

/-- A size that is not checked is passed on. -/
theorem NewSizeUnchecked.not_checked (h : NewSizeUnchecked frame) : ¬ HeapChecked frame := by
  intro hchecked
  have hcall := sysRealloc_move h.layout h.ptr h.size
  rw [← sysHeap_realloc h.number] at hcall
  exact h.new (hchecked.made _ _ hcall).2.2

/-- The calls of the handler keep the allocator's contract, and a request for a call that would break it
is refused, exactly if it is not a reallocation of a block with a valid layout to a size that makes no
valid layout. -/
theorem heapChecked_iff (frame : TrapFrame) (h8 : HeapSyscall frame) :
    HeapChecked frame ↔ ¬ NewSizeUnchecked frame := by
  constructor
  · intro hchecked hsizes
    exact hsizes.not_checked hchecked
  · intro hsizes
    rcases h8 with h8 | h8 | h8
    · exact heapChecked_alloc h8
    · exact heapChecked_realloc h8 hsizes
    · exact heapChecked_free h8

end Handler

/-- The frame of a call with a number and arguments, which is what `svc` saves when `user.rs` has put them
into the registers. -/
def svcFrame (base : TrapFrame) (number : BitVec 64) (args : List (BitVec 64)) : TrapFrame :=
  { base with x := fun i => if i.val = 8 then number else args.getD i.val (base.x i) }

/-- A frame of zeros. -/
def zeroFrame : TrapFrame := ⟨fun _ => 0, 0, 0, 0, 0, 0⟩

/-- `heapChecked_iff` at an allocation with an alignment that is no power of two. -/
theorem heapChecked_iff_alloc : HeapChecked (svcFrame zeroFrame syscallAlloc [16, 3]) ↔
    ¬ NewSizeUnchecked (svcFrame zeroFrame syscallAlloc [16, 3]) :=
  heapChecked_iff _ (.inl (by decide))

/-- A block of 16 bytes that is to be reallocated to `2^63` is passed on to the allocator. -/
theorem not_heapChecked :
    ¬ HeapChecked (svcFrame zeroFrame syscallRealloc [0x1000, 16, 0x8000000000000000, 8]) :=
  NewSizeUnchecked.not_checked
    ⟨by decide, by decide, ⟨⟨3, by decide, by decide⟩, by decide⟩, by decide, by decide⟩

end Ralix.Kernel
