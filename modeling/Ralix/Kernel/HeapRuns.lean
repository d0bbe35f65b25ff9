import Ralix.Kernel.Heap
import Ralix.Lib.Trace

/-!
# Blocks over whole runs

Sequences of system calls for memory, by callers that pass back what they hold, as `user.rs` does, and
with any answers of the allocator. A caller's view of its blocks, with the sizes and alignments that it
asked for, and the blocks of the kernel heap agree in every state of a run (`HeapInv`). So the handler
releases each block with the layout that it was allocated with, and once (`heap_paired`).
-/

namespace Ralix.Kernel

open Lib Arch

/-- A call of `alloc`, `realloc`, or `free` in `user.rs`. -/
inductive HeapRequest where
  | alloc (size align : BitVec 64)
  | realloc (ptr oldSize newSize align : BitVec 64)
  | free (ptr size align : BitVec 64)

namespace HeapRequest

/-- The frame of a request, whose other registers are those of `base`. -/
def frame (base : TrapFrame) : HeapRequest → TrapFrame
  | alloc size align => svcFrame base syscallAlloc [size, align]
  | realloc ptr oldSize newSize align => svcFrame base syscallRealloc [ptr, oldSize, newSize, align]
  | free ptr size align => svcFrame base syscallFree [ptr, size, align]

/-- A caller passes back null, or a pointer that it holds, with the size and the alignment that it last
asked for, and reallocates only to sizes that make a valid layout. -/
def Allowed (owned : Blocks) : HeapRequest → Prop
  | alloc _ _ => True
  | realloc ptr oldSize newSize align =>
    (ptr = 0 ∨ owned ptr = some ⟨oldSize.toNat, align.toNat⟩) ∧
      (newSize.toNat = 0 ∨ Block.Valid ⟨newSize.toNat, max align.toNat 1⟩)
  | free ptr size align => ptr = 0 ∨ owned ptr = some ⟨size.toNat, align.toNat⟩

/-- What a caller holds after the result of a request: 0 is no pointer, and `u64::MAX` is a failure, which
leaves it what it had. -/
def keep (owned : Blocks) (result : BitVec 64) : HeapRequest → Blocks
  | alloc size align =>
    if result = 0 ∨ result = failure then owned
    else Function.update owned result (some ⟨size.toNat, align.toNat⟩)
  | realloc ptr _ newSize align =>
    if result = failure then owned
    else if result = 0 then Function.update owned ptr none
    else Function.update (Function.update owned ptr none) result
      (some ⟨newSize.toNat, align.toNat⟩)
  | free ptr _ _ => if result = failure then owned else Function.update owned ptr none

section Keep

variable (owned : Blocks) (size align ptr oldSize newSize result : BitVec 64)

/-- A failure leaves a caller what it had. -/
theorem keep_failure (r : HeapRequest) : r.keep owned failure = owned := by
  cases r with
  | alloc size align => rw [keep, if_pos (Or.inr rfl)]
  | realloc ptr oldSize newSize align => rw [keep, if_pos rfl]
  | free ptr size align => rw [keep, if_pos rfl]

/-- No pointer is nothing to hold. -/
theorem keep_alloc_zero : (alloc size align).keep owned 0 = owned := by
  rw [keep, if_pos (Or.inl rfl)]

/-- A new block. -/
theorem keep_alloc (hpos : result ≠ 0) (hne : result ≠ failure) : (alloc size align).keep owned result =
    Function.update owned result (some ⟨size.toNat, align.toNat⟩) := by
  rw [keep, if_neg fun h => h.elim hpos hne]

/-- A block that is reallocated to a size of 0 is gone. -/
theorem keep_realloc_zero :
    (realloc ptr oldSize newSize align).keep owned 0 = Function.update owned ptr none := by
  rw [keep, if_neg (by decide), if_pos rfl]

/-- A block in the place of another. -/
theorem keep_realloc (hpos : result ≠ 0) (hne : result ≠ failure) :
    (realloc ptr oldSize newSize align).keep owned result =
      Function.update (Function.update owned ptr none) result
        (some ⟨newSize.toNat, align.toNat⟩) := by
  rw [keep, if_neg hne, if_neg hpos]

/-- A block that is freed is gone. -/
theorem keep_free_zero : (free ptr size align).keep owned 0 = Function.update owned ptr none := by
  rw [keep, if_neg (by decide)]

end Keep

end HeapRequest

/-- What the callers hold, and the blocks of the kernel heap. -/
structure HeapState where
  owned : Blocks
  live : Blocks

/-- No blocks. -/
def HeapState.new : HeapState := ⟨fun _ => none, fun _ => none⟩

/-- A system call: the request, the rest of the registers, and what the allocator answers, if it is
called. -/
structure HeapAct where
  request : HeapRequest
  base : TrapFrame
  answer : BitVec 64

/-- What the handler does with the system call. -/
def HeapAct.branch (a : HeapAct) : HeapBranch := sysHeap (a.request.frame a.base)

/-- What a system call leaves, by what the handler does. -/
def HeapAct.Leaves (a : HeapAct) (s : HeapState) : HeapBranch → HeapState → Prop
  | .done frame, s' => s' = ⟨a.request.keep s.owned (reg frame 0), s.live⟩
  | .call call resume, s' => call.Answers s.live a.answer ∧
    s' = ⟨a.request.keep s.owned (reg (resume a.answer) 0), call.effect s.live a.answer⟩

/-- A system call that a caller may make. -/
def HeapStep (s : HeapState) (a : HeapAct) (s' : HeapState) : Prop :=
  a.request.Allowed s.owned ∧ a.Leaves s a.branch s'

/-- The block of the kernel heap for what a caller asked for: an alignment of 0 is one of 1. -/
def kernelBlock (b : Block) : Block := ⟨b.size, max b.align 1⟩

/-- A pointer that a caller may hold to a block. -/
structure Held (ptr : BitVec 64) (b : Block) : Prop where
  pos : ptr ≠ 0
  ne_failure : ptr ≠ failure
  size : b.size ≠ 0
  valid : (kernelBlock b).Valid

/-- What the callers hold are the blocks of the kernel heap. -/
structure HeapInv (s : HeapState) : Prop where
  live : ∀ ptr, s.live ptr = (s.owned ptr).map kernelBlock
  held : ∀ ptr b, s.owned ptr = some b → Held ptr b

namespace HeapInv

variable {s s' : HeapState} {ptr : BitVec 64} {b : Block}

/-- Before the first call. -/
theorem new : HeapInv HeapState.new := ⟨fun _ => rfl, fun _ _ h => by cases h⟩

/-- A block more. -/
theorem insert (h : HeapInv s) (hb : Held ptr b) :
    HeapInv ⟨Function.update s.owned ptr (some b), Function.update s.live ptr (some (kernelBlock b))⟩ := by
  constructor
  · intro p
    by_cases hp : p = ptr
    · subst hp
      simp only [Function.update_self, Option.map_some]
    · simp only [Function.update_of_ne hp, h.live p]
  · intro p b' hp
    by_cases hpp : p = ptr
    · subst hpp
      simp only [Function.update_self, Option.some.injEq] at hp
      exact hp ▸ hb
    · simp only [Function.update_of_ne hpp] at hp
      exact h.held p b' hp

/-- A block less. -/
theorem erase (h : HeapInv s) (ptr : BitVec 64) :
    HeapInv ⟨Function.update s.owned ptr none, Function.update s.live ptr none⟩ := by
  constructor
  · intro p
    by_cases hp : p = ptr
    · subst hp
      simp only [Function.update_self, Option.map_none]
    · simp only [Function.update_of_ne hp, h.live p]
  · intro p b' hp
    by_cases hpp : p = ptr
    · subst hpp
      simp only [Function.update_self] at hp
      cases hp
    · simp only [Function.update_of_ne hpp] at hp
      exact h.held p b' hp

/-- No caller holds the null pointer. -/
theorem erase_null (h : HeapInv s) : Function.update s.owned 0 none = s.owned := by
  have hnone : s.owned 0 = none := by
    cases hs : s.owned 0 with
    | none => rfl
    | some b => exact absurd rfl (h.held 0 b hs).pos
  rw [← hnone, Function.update_eq_self]

end HeapInv

/-! ## Single calls -/

/-- The result of a branch is in `x0`. -/
theorem reg_ret (frame : TrapFrame) (value : BitVec 64) : reg (ret frame value) 0 = value := rfl

/-- A null pointer from the allocator is a failure. -/
theorem pointerResult_null : pointerResult 0 = failure := if_pos rfl

/-- The address of a block is neither null nor `u64::MAX`. -/
theorem held_of_answer {ans : BitVec 64} {b : Block} (hans : ans ≠ 0) (hsize : b.size ≠ 0)
    (hfit : ans.toNat + b.size < 2^64) (hvalid : (kernelBlock b).Valid) :
    Held ans b ∧ pointerResult ans = ans := by
  refine ⟨⟨hans, ?_, hsize, hvalid⟩, if_neg hans⟩
  rintro rfl
  have hmax : failure.toNat = 2^64 - 1 := by decide
  omega

/-- What a call of the handler does: the invariant holds after it, and if the allocator was called to
release a block, then one that it had, with its layout. -/
structure HeapSound (s : HeapState) (branch : HeapBranch) (s' : HeapState) : Prop where
  inv : HeapInv s'
  paired : ∀ call resume, branch = .call call resume → call.Paired s.live

/-- A call that is answered without the allocator leaves the blocks as they are. -/
theorem HeapSound.of_done {s s' : HeapState} {a : HeapAct} (h : HeapInv s) {frame : TrapFrame}
    {value : BitVec 64} (hs : a.Leaves s (.done (ret frame value)) s')
    (hkeep : a.request.keep s.owned value = s.owned) : HeapSound s (.done (ret frame value)) s' := by
  refine ⟨?_, fun _ _ hcall => by cases hcall⟩
  have hs' : s' = ⟨a.request.keep s.owned value, s.live⟩ := hs
  rw [hs', hkeep]
  exact h

/-- A call that allocates a block adds it to what the caller holds, or fails and adds nothing. -/
theorem HeapSound.of_alloc {s s' : HeapState} {a : HeapAct} (h : HeapInv s) {frame : TrapFrame}
    {size align : BitVec 64} (hsize : size.toNat ≠ 0)
    (hvalid : Block.Valid ⟨size.toNat, max align.toNat 1⟩)
    (hs : a.Leaves s (.call (.alloc ⟨size.toNat, max align.toNat 1⟩)
      fun ptr => ret frame (pointerResult ptr)) s')
    (hkeep : ∀ ptr, ptr ≠ 0 → ptr ≠ failure → a.request.keep s.owned ptr =
      Function.update s.owned ptr (some ⟨size.toNat, align.toNat⟩)) :
    HeapSound s (.call (.alloc ⟨size.toNat, max align.toNat 1⟩)
      fun ptr => ret frame (pointerResult ptr)) s' := by
  obtain ⟨hans, rfl⟩ := hs
  refine ⟨?_, fun call resume hcall => by cases hcall; trivial⟩
  by_cases hnull : a.answer = 0
  · rw [HeapCall.effect, if_pos hnull, hnull, reg_ret, pointerResult_null,
      HeapRequest.keep_failure]
    exact h
  · obtain ⟨-, hfit⟩ := hans.resolve_left hnull
    obtain ⟨hheld, hresult⟩ :=
      held_of_answer (b := ⟨size.toNat, align.toNat⟩) hnull hsize hfit hvalid
    rw [HeapCall.effect, if_neg hnull, reg_ret, hresult, hkeep _ hheld.pos hheld.ne_failure]
    exact h.insert hheld

section Requests

open HeapRequest

variable {s s' : HeapState} {size align ptr oldSize newSize answer : BitVec 64} {base : TrapFrame}

/-- A request for a block. -/
theorem heapSound_alloc (h : HeapInv s) (hs : HeapStep s ⟨.alloc size align, base, answer⟩ s') :
    HeapSound s (HeapAct.branch ⟨.alloc size align, base, answer⟩) s' := by
  let frame := svcFrame base syscallAlloc [size, align]
  have hbranch : HeapAct.branch ⟨.alloc size align, base, answer⟩ = sysAlloc frame :=
    sysHeap_alloc rfl
  obtain ⟨-, hs⟩ := hs
  rw [hbranch] at hs ⊢
  by_cases hsize : (reg frame 0).toNat = 0
  · have hdone : sysAlloc frame = .done (ret frame 0) := by
      simp only [sysAlloc, if_pos hsize]
    rw [hdone] at hs ⊢
    exact .of_done h hs (keep_alloc_zero ..)
  · rcases sysAlloc_cases hsize with ⟨hvalid, hcall⟩ | ⟨-, hdone⟩
    · rw [hcall] at hs ⊢
      exact .of_alloc h hsize hvalid hs fun ptr hpos hne => keep_alloc _ _ _ _ hpos hne
    · rw [hdone] at hs ⊢
      exact .of_done h hs (keep_failure ..)

/-- A null pointer to reallocate. -/
theorem heapSound_realloc_null (h : HeapInv s)
    (hs : HeapStep s ⟨.realloc 0 oldSize newSize align, base, answer⟩ s') :
    HeapSound s (HeapAct.branch ⟨.realloc 0 oldSize newSize align, base, answer⟩) s' := by
  let frame := svcFrame base syscallRealloc [0, oldSize, newSize, align]
  have hbranch : HeapAct.branch ⟨.realloc 0 oldSize newSize align, base, answer⟩ =
      sysRealloc frame := sysHeap_realloc rfl
  obtain ⟨-, hs⟩ := hs
  rw [hbranch] at hs ⊢
  by_cases hold : (oldBlock frame).Valid
  swap
  · rw [sysRealloc_invalid hold] at hs ⊢
    exact .of_done h hs (keep_failure ..)
  have hptr : reg frame 0 = 0 := rfl
  by_cases hnew : (reg frame 2).toNat = 0
  · rw [sysRealloc_null_zero hold hptr hnew] at hs ⊢
    exact .of_done h hs ((keep_realloc_zero ..).trans h.erase_null)
  · rcases sysRealloc_null hold hptr hnew with ⟨hvalid, hcall⟩ | ⟨-, hdone⟩
    · rw [hcall] at hs ⊢
      refine .of_alloc h hnew hvalid hs fun ptr hpos hne => ?_
      rw [keep_realloc _ _ _ _ _ _ hpos hne, h.erase_null]
      rfl
    · rw [hdone] at hs ⊢
      exact .of_done h hs (keep_failure ..)

/-- The size of a block is at least 1, so the handler forms the layout of the block. -/
theorem oldBlock_of_held (h : Held ptr ⟨oldSize.toNat, align.toNat⟩) :
    oldBlock (svcFrame base syscallRealloc [ptr, oldSize, newSize, align]) =
      kernelBlock ⟨oldSize.toNat, align.toNat⟩ := by
  have hsize : oldSize.toNat ≠ 0 := h.size
  show (⟨max oldSize.toNat 1, max align.toNat 1⟩ : Block) = ⟨oldSize.toNat, max align.toNat 1⟩
  rw [Nat.max_eq_left (Nat.pos_of_ne_zero hsize)]

/-- A block to reallocate. -/
theorem heapSound_realloc (h : HeapInv s) (hptr : ptr ≠ 0)
    (hs : HeapStep s ⟨.realloc ptr oldSize newSize align, base, answer⟩ s') :
    HeapSound s (HeapAct.branch ⟨.realloc ptr oldSize newSize align, base, answer⟩) s' := by
  let frame := svcFrame base syscallRealloc [ptr, oldSize, newSize, align]
  have hbranch : HeapAct.branch ⟨.realloc ptr oldSize newSize align, base, answer⟩ =
      sysRealloc frame := sysHeap_realloc rfl
  obtain ⟨⟨howned, hnewvalid⟩, hs⟩ := hs
  have hb := howned.resolve_left hptr
  have hheld := h.held _ _ hb
  have hblock : oldBlock frame = kernelBlock ⟨oldSize.toNat, align.toNat⟩ := oldBlock_of_held hheld
  have hold : (oldBlock frame).Valid := hblock ▸ hheld.valid
  have hlive : s.live ptr = some (oldBlock frame) := by
    rw [h.live, hb, hblock, Option.map_some]
  rw [hbranch] at hs ⊢
  by_cases hnew : (reg frame 2).toNat = 0
  · rw [sysRealloc_zero hold hptr hnew] at hs ⊢
    obtain ⟨-, rfl⟩ := hs
    refine ⟨?_, fun call resume hcall => by cases hcall; exact hlive⟩
    rw [reg_ret, keep_realloc_zero, HeapCall.effect]
    exact h.erase ptr
  · rw [sysRealloc_move hold hptr hnew] at hs ⊢
    obtain ⟨hans, rfl⟩ := hs
    refine ⟨?_, fun call resume hcall => by cases hcall; exact hlive⟩
    by_cases hnull : answer = 0
    · -- The old block stays, with the caller and with the allocator.
      rw [HeapCall.effect, if_pos hnull, hnull, reg_ret, pointerResult_null, keep_failure]
      exact h
    · obtain ⟨-, hfit⟩ := hans.resolve_left hnull
      have hvalid := hnewvalid.resolve_left hnew
      obtain ⟨hheld', hresult⟩ :=
        held_of_answer (b := ⟨newSize.toNat, align.toNat⟩) hnull hnew hfit hvalid
      rw [HeapCall.effect, if_neg hnull, reg_ret, hresult,
        keep_realloc _ _ _ _ _ _ hheld'.pos hheld'.ne_failure, hblock]
      exact (h.erase ptr).insert hheld'

/-- A block to free. -/
theorem heapSound_free (h : HeapInv s) (hs : HeapStep s ⟨.free ptr size align, base, answer⟩ s') :
    HeapSound s (HeapAct.branch ⟨.free ptr size align, base, answer⟩) s' := by
  let frame := svcFrame base syscallFree [ptr, size, align]
  have hbranch : HeapAct.branch ⟨.free ptr size align, base, answer⟩ = sysFree frame :=
    sysHeap_free rfl
  obtain ⟨howned, hs⟩ := hs
  rw [hbranch] at hs ⊢
  by_cases hptr : ptr = 0
  · have hdone : sysFree frame = .done (ret frame 0) := by
      simp only [sysFree, if_pos (show reg frame 0 = 0 ∨ _ from .inl hptr)]
    rw [hdone] at hs ⊢
    refine .of_done h hs ((keep_free_zero ..).trans ?_)
    rw [hptr, h.erase_null]
  · have hb := howned.resolve_left hptr
    have hheld := h.held _ _ hb
    have hlive : s.live ptr = some ⟨size.toNat, max align.toNat 1⟩ := by
      rw [h.live, hb]
      rfl
    -- The layout of a block that the caller holds is valid, so the block is freed.
    rcases @sysFree_cases frame (fun hor => hor.elim hptr hheld.size) with
      ⟨-, hcall⟩ | ⟨hinvalid, -⟩
    · rw [hcall] at hs ⊢
      obtain ⟨-, rfl⟩ := hs
      refine ⟨?_, fun call resume hc => by cases hc; exact hlive⟩
      rw [reg_ret, keep_free_zero, HeapCall.effect]
      exact h.erase ptr
    · exact absurd hheld.valid hinvalid

/-- Every system call that a caller may make is sound. -/
theorem heapSound_step {a : HeapAct} (h : HeapInv s) (hs : HeapStep s a s') :
    HeapSound s a.branch s' := by
  obtain ⟨request, base, answer⟩ := a
  cases request with
  | alloc size align => exact heapSound_alloc h hs
  | realloc ptr oldSize newSize align =>
    by_cases hptr : ptr = 0
    · subst hptr
      exact heapSound_realloc_null h hs
    · exact heapSound_realloc h hptr hs
  | free ptr size align => exact heapSound_free h hs

/-- A request is one of the three calls. -/
theorem heapSyscall_frame (request : HeapRequest) (base : TrapFrame) :
    HeapSyscall (request.frame base) := by
  cases request with
  | alloc size align => exact .inl rfl
  | realloc ptr oldSize newSize align => exact .inr (.inl rfl)
  | free ptr size align => exact .inr (.inr rfl)

/-- A `realloc` that fails leaves the caller and the heap what they had. -/
theorem realloc_failed {a : HeapAct} (hs : HeapStep s a s') {block : Block} {n : ℕ}
    {resume : BitVec 64 → TrapFrame} (hcall : a.branch = .call (.realloc ptr block n) resume)
    (hnull : a.answer = 0) : s' = s := by
  obtain ⟨-, hs⟩ := hs
  rw [hcall] at hs
  obtain ⟨-, rfl⟩ := hs
  rw [resume_of_realloc (heapSyscall_frame ..) hcall, hnull]
  show HeapState.mk _ _ = s
  rw [reg_ret, pointerResult_null, keep_failure, HeapCall.effect, if_pos rfl]

end Requests

/-! ## Runs -/

/-- In every run of system calls by callers that pass back what they hold, with any answers of the
allocator: every call that releases or reallocates a block names one that is allocated, with the layout
that it was allocated with; a `realloc` that fails changes nothing; and the blocks that are allocated
are those that the callers hold, so that none is left when they hold none. -/
theorem heap_paired (ts : List (Transition HeapState HeapAct)) (s : HeapState)
    (h : Trace HeapState.new HeapStep ts s) :
    (∀ x ∈ ts, ∀ call resume, x.act.branch = .call call resume → call.Paired x.pre.live ∧
      ∀ ptr block n, call = .realloc ptr block n → x.act.answer = 0 → x.post = x.pre) ∧
      (∀ ptr, s.live ptr = (s.owned ptr).map kernelBlock) ∧
      ((∀ ptr, s.owned ptr = none) → ∀ ptr, s.live ptr = none) := by
  have hkeep : ∀ s a s', HeapInv s → HeapStep s a s' → HeapInv s' := fun _ _ _ hi hs =>
    (heapSound_step hi hs).inv
  have hinv : HeapInv s := h.inv .new hkeep
  refine ⟨fun x hx call resume hcall => ?_, hinv.live, fun hnone ptr => ?_⟩
  · obtain ⟨hi, hs⟩ := h.of_mem .new hkeep x hx
    refine ⟨(heapSound_step hi hs).paired call resume hcall, ?_⟩
    rintro ptr block n rfl hnull
    exact realloc_failed hs hcall hnull
  · rw [hinv.live, hnone, Option.map_none]

/-! A request that is served. -/

section Served

variable {s : HeapState} {size align ptr newSize answer : BitVec 64}

/-- The allocator has a block. -/
theorem heapStep_alloc (base : TrapFrame) (hsize : size.toNat ≠ 0)
    (hvalid : Block.Valid ⟨size.toNat, max align.toNat 1⟩) (hpos : answer ≠ 0)
    (hfresh : s.live answer = none) (hfit : answer.toNat + size.toNat < 2^64) :
    HeapStep s ⟨.alloc size align, base, answer⟩
      ⟨Function.update s.owned answer (some ⟨size.toNat, align.toNat⟩),
        Function.update s.live answer (some ⟨size.toNat, max align.toNat 1⟩)⟩ := by
  let frame := svcFrame base syscallAlloc [size, align]
  have hcall : HeapAct.branch ⟨.alloc size align, base, answer⟩ =
      .call (.alloc ⟨size.toNat, max align.toNat 1⟩) fun ptr => ret frame (pointerResult ptr) :=
    (sysHeap_alloc rfl).trans
      ((@sysAlloc_cases frame hsize).resolve_right fun h => h.1 hvalid).2
  obtain ⟨hheld, hresult⟩ := held_of_answer (b := ⟨size.toNat, align.toNat⟩) hpos hsize hfit hvalid
  refine ⟨trivial, ?_⟩
  rw [hcall]
  refine ⟨.inr ⟨hfresh, hfit⟩, ?_⟩
  rw [reg_ret, hresult, HeapRequest.keep_alloc _ _ _ _ hheld.pos hheld.ne_failure, HeapCall.effect,
    if_neg hpos]

/-- The allocator has no other block. -/
theorem heapStep_realloc_failed (base : TrapFrame) (h : HeapInv s)
    (hb : s.owned ptr = some ⟨size.toNat, align.toNat⟩) (hnew : newSize.toNat ≠ 0)
    (hvalid : Block.Valid ⟨newSize.toNat, max align.toNat 1⟩) :
    HeapStep s ⟨.realloc ptr size newSize align, base, 0⟩ s := by
  let frame := svcFrame base syscallRealloc [ptr, size, newSize, align]
  have hheld := h.held _ _ hb
  have hcall : HeapAct.branch ⟨.realloc ptr size newSize align, base, 0⟩ =
      .call (.realloc ptr (oldBlock frame) newSize.toNat)
        fun ptr => ret frame (pointerResult ptr) :=
    (sysHeap_realloc rfl).trans (sysRealloc_move (oldBlock_of_held hheld ▸ hheld.valid) hheld.pos hnew)
  refine ⟨⟨.inr hb, .inr hvalid⟩, ?_⟩
  rw [hcall]
  refine ⟨.inl rfl, ?_⟩
  show s = HeapState.mk _ _
  rw [reg_ret, pointerResult_null, HeapRequest.keep_failure, HeapCall.effect, if_pos rfl]

/-- A block is given back. -/
theorem heapStep_free (base : TrapFrame) (h : HeapInv s)
    (hb : s.owned ptr = some ⟨size.toNat, align.toNat⟩) :
    HeapStep s ⟨.free ptr size align, base, answer⟩
      ⟨Function.update s.owned ptr none, Function.update s.live ptr none⟩ := by
  let frame := svcFrame base syscallFree [ptr, size, align]
  have hheld := h.held _ _ hb
  have hcall : HeapAct.branch ⟨.free ptr size align, base, answer⟩ =
      .call (.dealloc ptr ⟨size.toNat, max align.toNat 1⟩) fun _ => ret frame 0 :=
    (sysHeap_free rfl).trans ((@sysFree_cases frame fun hor =>
      hor.elim hheld.pos hheld.size).resolve_right fun hn => hn.1 hheld.valid).2
  refine ⟨.inr hb, ?_⟩
  rw [hcall]
  refine ⟨trivial, ?_⟩
  rw [reg_ret, HeapRequest.keep_free_zero, HeapCall.effect]

end Served

/-- `heap_paired` for a caller that allocates a block, of which a `realloc` fails, and frees it. -/
theorem heap_paired_sample : ∃ ts s, Trace HeapState.new HeapStep ts s ∧ ts.length = 3 ∧
    ∀ ptr, s.live ptr = none := by
  have h₁ := @heapStep_alloc .new 16 0 0x1000 zeroFrame (by decide) (by decide) (by decide) rfl
    (by decide)
  have hinv := (heapSound_step .new h₁).inv
  have h₂ := @heapStep_realloc_failed _ 16 0 0x1000 32 zeroFrame hinv (by decide) (by decide)
    (by decide)
  have h₃ := @heapStep_free _ 16 0 0x1000 0 zeroFrame hinv (by decide)
  have htrace := ((Trace.nil.cons h₁).cons h₂).cons h₃
  refine ⟨_, _, htrace, rfl, (heap_paired _ _ htrace).2.2 fun ptr => ?_⟩
  rw [Function.update_idem]
  exact congrFun (Function.update_eq_self (0x1000 : BitVec 64) HeapState.new.owned) ptr

end Ralix.Kernel
