import Ralix.Mm.InitSpec

/-!
# The range of the boot allocator

`mm::init` looks for the usable region that `boot_start`, the page after the kernel, lies in, and
gives the boot allocator the rest of that region. If there is none, it falls back to the end of the
first usable region, and leaves `boot_start` as it is. Then the range starts outside of usable
memory: it is empty if the first usable region ends before the kernel does, and otherwise it begins
with whatever follows the kernel in the map. `bootRangeUsable_iff` says when what the boot allocator
hands out is usable memory.
-/

namespace Ralix.Mm

open Lib Extent MemoryMap

/-- The range that `mm::init` gives to `bootalloc::init`, for the end of the kernel. -/
def bootRange (map : NormalizedMap) (kernelEnd : UInt64) : ℕ × ℕ :=
  let bootStart := alignUp kernelEnd.toNat pageSize
  (bootStart, bootRangeEnd map.regions bootStart)

/-- The range is the one that `Boot.init` uses. -/
theorem bootRange_eq (b : Boot) :
    bootRange b.map.normalize b.info.kernelEnd = (b.bootStart, b.bootEnd) := rfl

/-- The boot allocators after calls of `alloc`, with alignments that are powers of two. -/
inductive BootRun (b : BootAlloc) : BootAlloc → Prop
  | init : BootRun b b
  | alloc {b' : BootAlloc} {size k : ℕ} (hk : k < 64) :
      BootRun b b' → BootRun b (b'.alloc size (2^k)).2

/-- Some call of `alloc` returns a block that the address is in. -/
def HandsOut (map : NormalizedMap) (kernelEnd : UInt64) (a : ℕ) : Prop :=
  ∃ b size k p b', BootRun (BootAlloc.init (bootRange map kernelEnd).1 (bootRange map kernelEnd).2) b ∧
    k < 64 ∧ b.alloc size (2^k) = (some p, b') ∧ p ≤ a ∧ a < p + size

/-- The range of the boot allocator is part of a usable region, unless it is empty, and so is what
the allocator hands out. -/
structure BootRangeUsable (map : NormalizedMap) (kernelEnd : UInt64) : Prop where
  contained : (bootRange map kernelEnd).1 < (bootRange map kernelEnd).2 →
    ∃ r ∈ map.regions, r.kind = .usableRam ∧ r.start ≤ (bootRange map kernelEnd).1 ∧
      (bootRange map kernelEnd).2 ≤ r.stop
  /-- An address that is handed out is in a usable region. -/
  usable : ∀ a, HandsOut map kernelEnd a →
    ∃ r ∈ map.regions, r.kind = .usableRam ∧ r.Contains a
  /-- If the regions are disjoint, it is in no region of another kind. -/
  alone : Apart map.regions → ∀ a, HandsOut map kernelEnd a →
    ∀ r ∈ map.regions, r.Contains a → r.kind = .usableRam

/-- A usable region of the normalized map ends on a page boundary below the last address. -/
theorem normalize_stop_lt {m : MemoryMap} {r : PhysRegion} (hr : r ∈ m.normalize.regions)
    (hk : r.kind = .usableRam) : r.stop < 2^64 - 1 := by
  obtain ⟨s, hs, rfl⟩ := mem_normalize_iff.mp hr
  have hstop : s.stop ≤ 2^64 - 1 :=
    (merged_painted m.regions).stop_le (fun t ht => Nat.le_pred_of_lt (m.bounded t ht).2) hs
  by_cases hks : s.kind = .usableRam
  · rw [alignRegion, if_neg (not_not.mpr hks)]
    dsimp only
    split
    · decide
    · show alignDown s.stop pageSize < 2^64 - 1
      rw [alignDown_page (by omega)]
      omega
  · rw [alignRegion_other hks] at hk
    exact absurd hk hks

variable {m : MemoryMap} {kernelEnd : UInt64}

/-- The boot allocator starts on a page boundary in the address space. -/
theorem bootRange_start (map : NormalizedMap) (kernelEnd : UInt64) :
    (bootRange map kernelEnd).1 % pageSize = 0 ∧ (bootRange map kernelEnd).1 < 2^64 :=
  alignUp_dvd (k := 12) kernelEnd.toNat (by decide)

/-- The boot range ends below the last address. -/
theorem bootRange_stop_lt : (bootRange m.normalize kernelEnd).2 < 2^64 - 1 := by
  by_cases hzero : (bootRange m.normalize kernelEnd).2 = 0
  · rw [hzero]
    decide
  · obtain ⟨r, hr, hk, hstop⟩ := bootRangeEnd_spec hzero
    rw [show (bootRange m.normalize kernelEnd).2 = r.stop from hstop]
    exact normalize_stop_lt hr hk

/-- The calls of `alloc` move upwards and keep the end of the range. -/
theorem BootRun.inv {b b' : BootAlloc} (h : BootRun b b') (hstop : b.stop < 2^64 - 1)
    (hcur : b.current < 2^64) :
    b'.stop = b.stop ∧ b.current ≤ b'.current ∧ b'.current < 2^64 := by
  induction h with
  | init => exact ⟨rfl, le_rfl, hcur⟩
  | @alloc b' size k hk _ ih =>
    obtain ⟨hs, hle, hlt⟩ := ih
    match hres : b'.alloc size (2^k) with
    | (none, b'') =>
      rw [BootAlloc.alloc_none hres]
      exact ⟨hs, hle, hlt⟩
    | (some p, b'') =>
      obtain ⟨hp, hp0, -, hs', hcur', hle'⟩ := BootAlloc.alloc_some (by omega) hres
      rw [Nat.max_eq_left (Nat.two_pow_pos k)] at hp
      have hup : b'.current ≤ p := by
        rw [hp]
        exact le_alignUp hlt hk (hp ▸ hp0)
      exact ⟨hs'.trans hs, by show b.current ≤ b''.current; omega,
        by show b''.current < 2^64; omega⟩

/-- What is handed out lies in the range. -/
theorem HandsOut.mem_range {a : ℕ} (h : HandsOut m.normalize kernelEnd a) :
    (bootRange m.normalize kernelEnd).1 ≤ a ∧ a < (bootRange m.normalize kernelEnd).2 := by
  obtain ⟨b, size, k, p, b', hrun, hk, hres, hlo, hhi⟩ := h
  obtain ⟨hdvd, hlt⟩ := bootRange_start m.normalize kernelEnd
  have hstart : alignUp (bootRange m.normalize kernelEnd).1 pageSize =
      (bootRange m.normalize kernelEnd).1 := alignUp_page_of_dvd hlt hdvd
  obtain ⟨hstop, hcur, hcurlt⟩ :=
    hrun.inv (by rw [BootAlloc.init_stop]; exact bootRange_stop_lt)
      (by rw [BootAlloc.init_current, hstart]; exact hlt)
  rw [BootAlloc.init_stop] at hstop
  rw [BootAlloc.init_current, hstart] at hcur
  have hbound : b.stop < 2^64 - 1 := hstop ▸ bootRange_stop_lt
  obtain ⟨hp, hp0, -, -, hcur', hle'⟩ := BootAlloc.alloc_some hbound hres
  rw [Nat.max_eq_left (Nat.two_pow_pos k)] at hp
  have hup : b.current ≤ p := by
    rw [hp]
    exact le_alignUp hcurlt hk (hp ▸ hp0)
  omega

/-- A range that is in a usable region is usable, and so is what is handed out. -/
theorem bootRangeUsable_of_contained
    (h : (bootRange m.normalize kernelEnd).1 < (bootRange m.normalize kernelEnd).2 →
      ∃ r ∈ m.normalize.regions, r.kind = .usableRam ∧
        r.start ≤ (bootRange m.normalize kernelEnd).1 ∧
        (bootRange m.normalize kernelEnd).2 ≤ r.stop) :
    BootRangeUsable m.normalize kernelEnd := by
  have husable : ∀ a, HandsOut m.normalize kernelEnd a →
      ∃ r ∈ m.normalize.regions, r.kind = .usableRam ∧ r.Contains a := by
    intro a ha
    obtain ⟨hlo, hhi⟩ := ha.mem_range
    obtain ⟨r, hr, hk, hstart, hstop⟩ := h (hlo.trans_lt hhi)
    exact ⟨r, hr, hk, hstart.trans hlo, hhi.trans_le hstop⟩
  refine ⟨h, husable, fun hapart a ha r hr hc => ?_⟩
  obtain ⟨s, hs, hk, hsc⟩ := husable a ha
  rw [hapart.eq_of_contains hr hs hc hsc]
  exact hk

/-- The range of the boot allocator is usable exactly if the page after the kernel is in a usable
region, or not before the end of the first usable region. -/
theorem bootRangeUsable_iff (m : MemoryMap) (kernelEnd : UInt64) :
    BootRangeUsable m.normalize kernelEnd ↔
      (∃ r ∈ m.normalize.regions, r.kind = .usableRam ∧
        r.Contains (alignUp kernelEnd.toNat pageSize)) ∨
      ∀ r, (m.normalize.regions.filter fun r => r.kind = .usableRam).head? = some r →
        r.stop ≤ alignUp kernelEnd.toNat pageSize := by
  have hcases := bootRangeEnd_cases m.normalize.regions (alignUp kernelEnd.toNat pageSize)
  constructor
  · intro h
    by_contra hnot
    rw [not_or, not_forall] at hnot
    obtain ⟨hnone, r, hr⟩ := hnot
    obtain ⟨hhead, hstop⟩ := Classical.not_imp.mp hr
    -- The fallback takes the end of the first usable region, past the start of the range.
    obtain ⟨-, hend⟩ := hcases.resolve_left fun ⟨s, hs, hk, hc, _⟩ => hnone ⟨s, hs, hk, hc⟩
    rw [hhead] at hend
    have hrange : bootRange m.normalize kernelEnd = (alignUp kernelEnd.toNat pageSize, r.stop) :=
      congrArg (Prod.mk _) hend
    obtain ⟨s, hs, hk, hlo, hhi⟩ := h.contained (by rw [hrange]; exact Nat.not_le.mp hstop)
    rw [hrange] at hlo hhi
    exact hnone ⟨s, hs, hk, hlo, (Nat.not_le.mp hstop).trans_le hhi⟩
  · intro h
    refine bootRangeUsable_of_contained fun hne => ?_
    rcases hcases with ⟨r, hr, hk, hc, hend⟩ | ⟨hnone, hend⟩
    · exact ⟨r, hr, hk, hc.1, hend.le⟩
    · -- Without a usable region around its start, the range is empty.
      have hfirst := h.resolve_left fun ⟨r, hr, hk, hc⟩ => hnone r hr hk hc
      have hne : alignUp kernelEnd.toNat pageSize <
          bootRangeEnd m.normalize.regions (alignUp kernelEnd.toNat pageSize) := hne
      rw [hend] at hne
      match hhead : (m.normalize.regions.filter fun r => r.kind = .usableRam).head? with
      | none =>
        rw [hhead] at hne
        exact absurd hne (Nat.not_lt_zero _)
      | some r =>
        rw [hhead] at hne
        exact absurd hne (Nat.not_lt.mpr (hfirst r hhead))

/-- A board whose DTB lies right after the kernel, and whose first pages are reserved. -/
def dtbAfterKernel : MemoryMap := MemoryMap.new.addAll
  [⟨0, 0x3C000000, .usableRam⟩, ⟨0, 0x80000, .reserved⟩, ⟨0x80000, 0x180000, .kernelImage⟩,
    ⟨0x200000, 0x200000, .kernelImage⟩, ⟨0x3F0000, 0x10000, .bootStack⟩,
    ⟨0x400000, 0x10000, .bootInfo⟩, ⟨0x3F000000, 0x1000000, .mmio⟩]

/-- There, the boot allocator starts in the DTB. -/
theorem not_bootRangeUsable : ¬ ∀ m kernelEnd, BootRangeUsable (MemoryMap.normalize m) kernelEnd := by
  intro h
  have hrange : bootRange dtbAfterKernel.normalize 0x400000 = (0x400000, 0x3C000000) := by
    decide +kernel
  have hnone : ∀ r ∈ dtbAfterKernel.normalize.regions, r.kind = .usableRam → ¬ r.start ≤ 0x400000 := by
    decide +kernel
  have hcontained := (h dtbAfterKernel 0x400000).contained
  rw [hrange] at hcontained
  obtain ⟨r, hr, hk, hlo, -⟩ := hcontained (by decide)
  exact hnone r hr hk hlo

end Ralix.Mm
