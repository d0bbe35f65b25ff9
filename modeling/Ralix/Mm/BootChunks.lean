import Ralix.Lib.Extent
import Ralix.Mm.FrameSpec

/-!
# What the boot allocator hands out

`bootalloc::alloc`, in any sequence of calls. `BOOT_CURRENT` moves up and past what has been handed
out, so the chunks are in order (`allocAll_spec`). The arithmetic does no harm at the ends of the
address space: `align_up` wraps to 0 if it wraps at all, and a sum that saturates is past `BOOT_END`.
-/

namespace Ralix.Mm

open Lib Extent

/-- The arguments of a call to `bootalloc::alloc`. -/
structure BootRequest where
  size : ℕ
  align : ℕ
deriving DecidableEq, Repr

namespace BootRequest

/-- The alignment that `alloc` uses, which is 1 for 0. -/
def unit (r : BootRequest) : ℕ := max r.align 1

/-- The alignment is 0 or a power of two. -/
def Aligned (r : BootRequest) : Prop := r.align = 0 ∨ ∃ k < 64, r.align = 2^k

/-- The alignment that `alloc` uses is a power of two. -/
theorem Aligned.exists_unit {r : BootRequest} (h : r.Aligned) : ∃ k < 64, r.unit = 2^k := by
  rcases h with h | ⟨k, hk, h⟩
  · exact ⟨0, by decide, by rw [unit, h]; rfl⟩
  · exact ⟨k, hk, by rw [unit, h, Nat.max_eq_left (Nat.two_pow_pos k)]⟩

end BootRequest

/-- The memory that a call has returned, and the call. -/
abbrev Chunk := Extent BootRequest

namespace BootAlloc

variable {b b' : BootAlloc} {r : BootRequest} {p : ℕ}

/-- A sequence of calls to `alloc`: the chunks of those that succeed. -/
def allocAll (b : BootAlloc) : List BootRequest → List Chunk × BootAlloc
  | [] => ([], b)
  | r :: rs =>
    let res := b.alloc r.size r.align
    let rest := res.2.allocAll rs
    (res.1.toList.map (fun p => ⟨p, p + r.size, r⟩) ++ rest.1, rest.2)

/-- A call that fails leaves the others as they are. -/
theorem allocAll_of_none (rs : List BootRequest) (h : b.alloc r.size r.align = (none, b')) :
    b.allocAll (r :: rs) = b.allocAll rs := by
  rw [alloc_none h] at h
  rw [allocAll, h]
  rfl

/-- A call that succeeds hands out the first chunk. -/
theorem allocAll_of_some (rs : List BootRequest) (h : b.alloc r.size r.align = (some p, b')) :
    b.allocAll (r :: rs) = (⟨p, p + r.size, r⟩ :: (b'.allocAll rs).1, (b'.allocAll rs).2) := by
  rw [allocAll, h]
  rfl

/-- A chunk is where and as its request says, and not at 0. -/
structure Fits (c : Chunk) : Prop where
  size : c.stop = c.start + c.kind.size
  aligned : c.start % c.kind.unit = 0
  pos : c.start ≠ 0

/-- The chunks lie one after the other between `BOOT_CURRENT` before and after the calls, inside the
range. -/
structure HandedOut (b : BootAlloc) (chunks : List Chunk) (b' : BootAlloc) : Prop where
  start : b'.start = b.start
  stop : b'.stop = b.stop
  le : b.current ≤ b'.current
  ordered : Ordered chunks
  fits : ∀ c ∈ chunks, Fits c
  within : ∀ c ∈ chunks, b.current ≤ c.start ∧ c.stop ≤ b'.current ∧ c.stop ≤ b.stop

/-- A call that succeeds hands out a chunk past `BOOT_CURRENT`, which it moves to the end of the
chunk. -/
theorem alloc_chunk (hr : r.Aligned) (hcur : b.current < 2^64) (hstop : b.stop < 2^64 - 1)
    (h : b.alloc r.size r.align = (some p, b')) :
    Fits ⟨p, p + r.size, r⟩ ∧ b.current ≤ p ∧ p + r.size ≤ b.stop ∧
      b'.start = b.start ∧ b'.stop = b.stop ∧ b'.current = p + r.size := by
  obtain ⟨k, hk, hunit⟩ := hr.exists_unit
  obtain ⟨hp, hpos, hstart', hstop', hcur', hle⟩ := alloc_some hstop h
  have hup : p = alignUp b.current (2^k) := by rw [hp, ← hunit, BootRequest.unit]
  refine ⟨⟨rfl, ?_, hpos⟩, ?_, hcur' ▸ hle, hstart', hstop', hcur'⟩
  · show p % r.unit = 0
    rw [hunit, hup]
    exact (alignUp_dvd b.current hk).1
  · rw [hup]
    exact le_alignUp hcur hk (hup ▸ hpos)

/-- A sequence of calls hands out chunks in order. -/
theorem allocAll_handedOut {rs : List BootRequest} (hrs : ∀ r ∈ rs, r.Aligned)
    (hcur : b.current < 2^64) (hstop : b.stop < 2^64 - 1) :
    HandedOut b (b.allocAll rs).1 (b.allocAll rs).2 := by
  induction rs generalizing b with
  | nil => exact ⟨rfl, rfl, le_rfl, List.Pairwise.nil, by simp [allocAll], by simp [allocAll]⟩
  | cons r rs ih =>
    obtain ⟨hr, hrs⟩ := List.forall_mem_cons.mp hrs
    rcases hres : b.alloc r.size r.align with ⟨_ | p, b₁⟩
    · rw [allocAll_of_none rs hres]
      exact ih hrs hcur hstop
    · obtain ⟨hfits, hle, hend, hstart₁, hstop₁, hcur₁⟩ := alloc_chunk hr hcur hstop hres
      have hcur' : b₁.current < 2^64 := by omega
      have hrest := ih hrs hcur' (hstop₁ ▸ hstop)
      rw [allocAll_of_some rs hres]
      -- The chunks of the later calls lie past the end of this one.
      refine ⟨hrest.start.trans hstart₁, hrest.stop.trans hstop₁, ?_, ?_, ?_, ?_⟩
      · have := hrest.le
        show b.current ≤ (b₁.allocAll rs).2.current
        omega
      · refine List.pairwise_cons.mpr ⟨fun c hc => ?_, hrest.ordered⟩
        have := (hrest.within c hc).1
        show p + r.size ≤ c.start
        omega
      · exact List.forall_mem_cons.mpr ⟨hfits, hrest.fits⟩
      · refine List.forall_mem_cons.mpr ⟨⟨hle, hcur₁ ▸ hrest.le, hend⟩, fun c hc => ?_⟩
        obtain ⟨hlo, hhi, hbound⟩ := hrest.within c hc
        exact ⟨by omega, hhi, by omega⟩

/-- The chunks of any calls from `init` on are aligned and as long as asked for, lie in the range and in
`used_range`, not at 0, and share no address. A call that fails changes nothing. -/
theorem allocAll_spec (start stop : ℕ) (hstop : stop < 2^64) (hpage : stop % pageSize = 0)
    (rs : List BootRequest) (hrs : ∀ r ∈ rs, r.Aligned) :
    (∀ c ∈ ((init start stop).allocAll rs).1, Fits c ∧
        alignUp start pageSize ≤ c.start ∧ c.stop ≤ stop ∧
        ((init start stop).allocAll rs).2.usedRange.1 ≤ c.start ∧
        c.stop ≤ ((init start stop).allocAll rs).2.usedRange.2) ∧
      Apart ((init start stop).allocAll rs).1 ∧
      ∀ (r : BootRequest) (b' : BootAlloc), ((init start stop).allocAll rs).2.alloc r.size r.align = (none, b') →
        b' = ((init start stop).allocAll rs).2 := by
  have hstop' : (init start stop).stop < 2^64 - 1 := by
    rw [init_stop]
    unfold pageSize at hpage
    omega
  have hcur : (init start stop).current < 2^64 := (alignUp_dvd (k := 12) start (by decide)).2
  have h := allocAll_handedOut hrs hcur hstop'
  refine ⟨fun c hc => ?_, h.ordered.apart, fun r b' hnone => alloc_none hnone⟩
  obtain ⟨hlo, hhi, hbound⟩ := h.within c hc
  refine ⟨h.fits c hc, hlo, hbound, ?_, hhi⟩
  show ((init start stop).allocAll rs).2.start ≤ c.start
  rw [h.start]
  exact hlo

/-- A request with an alignment, one whose alignment wraps around, one that is too large, and one of no
bytes. -/
def sampleRequests : List BootRequest := [⟨16, 64⟩, ⟨8, 2^63⟩, ⟨2^64 - 1, 1⟩, ⟨0, 0⟩]

/-- The alignments of the sample are powers of two or 0. -/
theorem sampleRequests_aligned : ∀ r ∈ sampleRequests, r.Aligned := by
  simp only [sampleRequests, List.forall_mem_cons, BootRequest.Aligned]
  exact ⟨.inr ⟨6, by decide⟩, .inr ⟨63, by decide⟩, .inr ⟨0, by decide⟩, .inl trivial, by simp⟩

/-- `allocAll_spec` at the sample. -/
theorem allocAll_spec_sample : Apart ((init 0x80001 0x90000).allocAll sampleRequests).1 :=
  (allocAll_spec 0x80001 0x90000 (by decide) (by decide) sampleRequests sampleRequests_aligned).2.1

end BootAlloc

end Ralix.Mm
