import Ralix.Mm.PagingSpec

/-!
# Where the page tables lead

The translation that the tables of `paging::init` describe. With regions and windows below 512 GiB,
every leaf that a walk finds is that of the address itself, and all that `init` is to map is mapped
(`identity_of_bounded`): each call of `map_range_with` maps blocks to the physical blocks of their
numbers, so it does not matter which of them was last.

A call whose end passes the end of the address space maps nothing, or next to nothing: `end` in
`map_range_with` wraps to a small address. `MapCall.covers_of_mem` is about all others.
-/

namespace Ralix.Mm

open Lib Platform

/-! ## What a call covers -/

namespace MapCall

variable {c : MapCall} {i : ℕ}

/-- The end of the call, rounded up, is an address. -/
def Fits (c : MapCall) : Prop := c.vstart + c.size ≤ 2^64 - 2^21

/-- A call starts at the boundary of a block. -/
theorem vaddr_eq (h : c.vstart < 2^64) : c.vaddr = c.vstart / 2^21 * 2^21 :=
  alignDown_spec (k := 21) h (by decide)

/-- A call maps the blocks from that of its start up to its end, rounded up. -/
theorem blocks_eq (h : c.Fits) (hsize : c.size ≠ 0) :
    c.blocks = (c.vstart + c.size + 2^21 - 1) / 2^21 - c.vstart / 2^21 := by
  unfold Fits at h
  have hstart := vaddr_eq (c := c) (by omega)
  have hstop : alignUp (wadd c.vstart c.size) blockSize =
      (c.vstart + c.size + 2^21 - 1) / 2^21 * 2^21 := by
    rw [wadd_of_lt (by omega)]
    exact alignUp_spec (k := 21) (by decide) (by omega)
  rw [blocks, if_neg hsize, hstart, hstop, ← Nat.sub_mul]
  exact Nat.mul_div_cancel _ (by decide)

/-- A call with a block is not empty. -/
theorem size_ne_zero (hi : i < c.blocks) : c.size ≠ 0 := by
  intro hzero
  rw [blocks, if_pos hzero] at hi
  exact absurd hi (Nat.not_lt_zero i)

/-- The address of a block of the call. -/
theorem step_eq (h : c.Fits) (hi : i < c.blocks) :
    wadd c.vaddr (wmul i blockSize) = (c.vstart / 2^21 + i) * 2^21 := by
  rw [blocks_eq h (size_ne_zero hi)] at hi
  unfold Fits at h
  rw [vaddr_eq (by omega)]
  unfold wadd wmul blockSize
  omega

/-- A call covers the block of every address in its range. -/
theorem covers_of_mem (h : c.Fits) {va : ℕ} (hle : c.vstart ≤ va) (hlt : va < c.vstart + c.size) :
    c.Covers (blockOf va) := by
  have hblocks := blocks_eq h (by omega)
  have hi : va / 2^21 - c.vstart / 2^21 < c.blocks := by
    rw [hblocks]
    omega
  refine ⟨va / 2^21 - c.vstart / 2^21, hi, ?_⟩
  rw [block, step_eq h hi]
  unfold blockOf
  omega

/-- A call that maps a range of physical addresses below 512 GiB at their virtual addresses. -/
structure Identity (c : MapCall) : Prop where
  virt : c.vstart = c.root.virt c.pstart
  le : c.pstart + c.size ≤ 2^39

/-- The virtual address of a physical one below 512 GiB. -/
theorem Identity.vstart_eq (h : c.Identity) :
    c.vstart = c.pstart ∨ c.vstart = c.pstart + kernelVirtBase := by
  have hle := h.le
  rw [h.virt]
  cases c.root with
  | user => exact .inl rfl
  | kernel =>
    refine .inr (wadd_of_lt ?_)
    unfold kernelVirtBase
    omega

/-- Below 512 GiB no call passes the end of the address space. -/
theorem Identity.fits (h : c.Identity) : c.Fits := by
  have hle := h.le
  have hv := h.vstart_eq
  unfold Fits
  unfold kernelVirtBase at hv
  omega

/-- Each block is mapped to the physical one of its number. -/
theorem Identity.step (h : c.Identity) (hi : i < c.blocks) :
    c.block i < 2^18 ∧
      wadd (alignDown c.pstart blockSize) (wmul i blockSize) = c.block i * 2^21 := by
  have hle := h.le
  have hv := h.vstart_eq
  have hpaddr : alignDown c.pstart blockSize = c.pstart / 2^21 * 2^21 :=
    alignDown_spec (k := 21) (by omega) (by decide)
  have hblocks := blocks_eq h.fits (size_ne_zero hi)
  have hblock : c.block i = c.pstart / 2^21 + i := by
    rw [block, step_eq h.fits hi]
    unfold blockOf
    unfold kernelVirtBase at hv
    omega
  have hlt : c.pstart / 2^21 + i < 2^18 := by
    unfold kernelVirtBase at hv
    omega
  refine ⟨hblock ▸ hlt, ?_⟩
  rw [hpaddr, hblock]
  unfold wadd wmul blockSize
  omega

/-- Its descriptors lead to the address itself. -/
theorem Identity.desc_pa (h : c.Identity) (hattr : c.attr < 8) (hap : c.ap < 4) (hsh : c.sh < 4)
    {a : ℕ} (hi : i < c.blocks) (hblock : c.block i = blockOf a) (ha : a < 2^39) :
    (c.desc i &&& 0x0000FFFFFFE00000) + a % 2^21 = a := by
  obtain ⟨-, hpaddr⟩ := h.step hi
  have hpa := (blockDesc_spec hattr hap hsh (c.block i * 2^21) c.xn).2.2
  rw [desc, hpaddr, hpa, hblock]
  unfold blockOf
  omega

end MapCall

/-! ## The calls of `init` -/

section Calls

variable {board : Board} {map : NormalizedMap} {extra : ExtraMmio} {root : Root}

/-- What `init` maps of a region. -/
theorem lt_mappedEnd {r : PhysRegion} (hr : r.stop ≤ 2^39) {a : ℕ} :
    a < mappedEnd board r ↔
      a < r.stop ∧ (board = .rpi5 → r.kind = .usableRam → a < r.start + 0x40000000) := by
  cases board with
  | qemu => simp [mappedEnd]
  | rpi5 =>
    by_cases hkind : r.kind = .usableRam
    · simp only [mappedEnd, hkind, if_true, true_implies]
      split <;> omega
    · simp [mappedEnd, hkind]

/-- `init` maps nothing past the end of a region. -/
theorem mappedEnd_le (board : Board) (r : PhysRegion) : mappedEnd board r ≤ r.stop := by
  unfold mappedEnd
  split
  · split
    · dsimp only
      split <;> omega
    · exact le_rfl
  · exact le_rfl

/-- The board's windows lie below 512 GiB. -/
theorem boardWindows_le {w : Window} (hw : w ∈ boardWindows board) : w.base + w.size ≤ 2^39 := by
  have key : ∀ w ∈ boardWindows board, w.base + w.size ≤ 2^39 := by
    cases board with
    | rpi5 => decide
    | qemu => decide
  exact key w hw

/-- A window of the board, or the extra one. -/
theorem mem_windows {w : Window} :
    w ∈ windows board extra ↔ w ∈ boardWindows board ∨ extra.size ≠ 0 ∧ w = extra.window := by
  rw [windows, List.mem_append]
  refine or_congr_right ?_
  split_ifs with hsize
  · simp [hsize]
  · simp [hsize]

/-- With regions and windows below 512 GiB, `init` maps only ranges below 512 GiB. -/
theorem identity_of_mem (hmap : ∀ r ∈ map.regions, r.stop ≤ 2^39)
    (hextra : extra.base + extra.size ≤ 2^39) {c : MapCall}
    (hc : c ∈ pagingCalls board map extra) : c.Identity := by
  rcases mem_pagingCalls.mp hc with ⟨r, hr, -, hlt, root, rfl⟩ | ⟨w, hw, root, rfl⟩
  · refine ⟨rfl, ?_⟩
    have hstop := hmap r hr
    have hle := mappedEnd_le board r
    show r.start + (mappedEnd board r - r.start) ≤ 2^39
    omega
  · refine ⟨rfl, ?_⟩
    rcases mem_windows.mp hw with hw | ⟨-, rfl⟩
    · exact boardWindows_le hw
    · exact hextra

/-- The call for a range covers the block of an address in the range. -/
theorem covers_block {c : MapCall} (hfits : c.Fits) (hvirt : c.vstart = c.root.virt c.pstart)
    {a : ℕ} (hle : c.pstart ≤ a) (hlt : a < c.pstart + c.size) : c.Covers (blockOf a) := by
  have hlt' : c.vstart + (a - c.pstart) < c.vstart + c.size := by omega
  have hcov := MapCall.covers_of_mem hfits (Nat.le_add_right _ _) hlt'
  have hblock : blockOf (c.vstart + (a - c.pstart)) = blockOf a := by
    rw [hvirt]
    cases c.root with
    | user =>
      show blockOf (c.pstart + (a - c.pstart)) = _
      rw [Nat.add_sub_cancel' hle]
    | kernel =>
      show blockOf (wadd c.pstart kernelVirtBase + (a - c.pstart)) = _
      unfold blockOf wadd kernelVirtBase
      omega
  rwa [hblock] at hcov

/-- An address that `init` is to map: of a region that is not MMIO, with the cap of `rpi5`, or of a
window. -/
def ToMap (board : Board) (map : NormalizedMap) (extra : ExtraMmio) (a : ℕ) : Prop :=
  (∃ r ∈ map.regions, r.kind ≠ .mmio ∧ r.start ≤ a ∧ a < r.stop ∧
    (board = .rpi5 → r.kind = .usableRam → a < r.start + 0x40000000)) ∨
  ∃ w ∈ windows board extra, w.base ≤ a ∧ a < w.base + w.size

/-- `init` covers what it is to map. -/
theorem covers_of_toMap (hmap : ∀ r ∈ map.regions, r.stop ≤ 2^39)
    (hextra : extra.base + extra.size ≤ 2^39) {a : ℕ} (ha : ToMap board map extra a)
    (root : Root) :
    ∃ c ∈ pagingCalls board map extra, c.root = root ∧ c.Covers (blockOf a) := by
  have key : ∀ c ∈ pagingCalls board map extra, c.pstart ≤ a → a < c.pstart + c.size →
      c.Covers (blockOf a) := by
    intro c hc hle hlt
    have hid := identity_of_mem hmap hextra hc
    exact covers_block hid.fits hid.virt hle hlt
  rcases ha with ⟨r, hr, hkind, hle, hstop, hcap⟩ | ⟨w, hw, hle, hlt⟩
  · have hend : a < mappedEnd board r := (lt_mappedEnd (hmap r hr)).mpr ⟨hstop, hcap⟩
    have hc : ramCall board r root ∈ pagingCalls board map extra :=
      mem_pagingCalls.mpr (.inl ⟨r, hr, hkind, hle.trans_lt hend, root, rfl⟩)
    refine ⟨_, hc, rfl, key _ hc hle ?_⟩
    show a < r.start + (mappedEnd board r - r.start)
    omega
  · have hc : w.call root ∈ pagingCalls board map extra :=
      mem_pagingCalls.mpr (.inr ⟨w, hw, root, rfl⟩)
    exact ⟨_, hc, rfl, key _ hc hle hlt⟩

/-- A mapped block has the descriptor of a call that covers it. -/
theorem exists_call {b : ℕ} (h : pagingMap board map extra root b ≠ 0) :
    ∃ c ∈ pagingCalls board map extra, c.root = root ∧ ∃ i < c.blocks, c.block i = b ∧
      pagingMap board map extra root b = c.desc i := by
  rcases pagingMap_cases board map extra root b with ⟨hzero, -⟩ | hcall
  · exact absurd hzero h
  · exact hcall

/-- A block that a call covers is mapped. -/
theorem pagingMap_ne_zero {b : ℕ} {c : MapCall} (hc : c ∈ pagingCalls board map extra)
    (hroot : c.root = root) (hcov : c.Covers b) : pagingMap board map extra root b ≠ 0 := by
  rcases pagingMap_cases board map extra root b with ⟨-, hnone⟩ | ⟨c, hc, -, i, -, -, heq⟩
  · exact absurd hcov (hnone c hc hroot)
  · obtain ⟨hattr, hap, hsh⟩ := pagingCalls_fields hc
    have hblock := (blockDesc_spec hattr hap hsh
      (wadd (alignDown c.pstart blockSize) (wmul i blockSize)) c.xn).1
    rw [heq]
    intro hzero
    rw [show blockDesc (wadd (alignDown c.pstart blockSize) (wmul i blockSize)) c.attr c.ap c.sh
      c.xn = 0 from hzero] at hblock
    exact absurd hblock (by decide)

end Calls

/-! ## Where addresses lead -/

/-- `init` always returns. A leaf is that of the address itself, in both sets of tables, and what
`init` is to map is mapped. -/
theorem identity_of_bounded (s : Root → TableAddrs) (board : Board) (map : NormalizedMap)
    (extra : ExtraMmio) (hmap : ∀ r ∈ map.regions, r.stop ≤ 2^39)
    (hextra : extra.base + extra.size ≤ 2^39) :
    ∃ t, pagingInit s board map extra = .ok t ∧ ∀ root a, a < 2^root.bits →
      ∃ res, walk (s root) (t root) (root.virt a) = .ok res ∧
        (∀ leaf, res = some leaf → leaf.pa = a) ∧ (ToMap board map extra a → res.isSome) := by
  obtain ⟨t, hrun, hwalk⟩ := pagingInit_ok s board map extra
  refine ⟨t, hrun, fun root a ha => ⟨_, hwalk root (root.virt a), ?_, fun hto => ?_⟩⟩
  · intro leaf hleaf
    split_ifs at hleaf with hidx
    rw [tableIndex_virt ha] at hidx
    unfold leafAt at hleaf
    rw [blockOf_virt, virt_mod] at hleaf
    split_ifs at hleaf with hzero
    cases hleaf
    obtain ⟨c, hc, -, i, hi, hblock, heq⟩ := exists_call hzero
    obtain ⟨hattr, hap, hsh⟩ := pagingCalls_fields hc
    show (pagingMap board map extra root (blockOf a) &&& _) + a % 2^21 = a
    rw [heq]
    exact (identity_of_mem hmap hextra hc).desc_pa hattr hap hsh hi hblock hidx
  · obtain ⟨c, hc, hroot, hcov⟩ := covers_of_toMap hmap hextra hto root
    -- the window of a root has 2^39 bytes, and all that is to be mapped lies in it
    have hlt : a < 2^39 := by
      rcases hto with ⟨r, hr, -, -, hstop, -⟩ | ⟨w, hw, -, hstop⟩
      · exact hstop.trans_le (hmap r hr)
      · rcases mem_windows.mp hw with hw | ⟨-, rfl⟩
        · exact hstop.trans_le (boardWindows_le hw)
        · exact hstop.trans_le hextra
    rw [if_pos ((tableIndex_virt ha).mpr hlt), leafAt, blockOf_virt,
      if_neg (pagingMap_ne_zero hc hroot hcov)]
    rfl

/-- Tables in the first MiBs of the kernel's window. -/
def sampleAddrs : Root → TableAddrs
  | .kernel => ⟨kernelVirtBase + 0x100000, kernelVirtBase + 0x101000, kernelVirtBase + 0x200000,
      by decide, by decide, by decide, by decide, by decide, by decide⟩
  | .user => ⟨kernelVirtBase + 0x102000, kernelVirtBase + 0x103000, kernelVirtBase + 0x600000,
      by decide, by decide, by decide, by decide, by decide, by decide⟩

/-- `identity_of_bounded` on RAM whose ends are no boundaries of blocks, with reserved memory in it,
and a UART's window. -/
theorem identity_of_bounded_sample :
    ∃ t, pagingInit sampleAddrs .rpi5
        ⟨[⟨0x1000, 0x345000, .usableRam⟩, ⟨0x345000, 0x801000, .reserved⟩], by decide, by decide⟩
        ⟨0x1f00000000, 0x200000, by decide⟩ = .ok t ∧
      ∀ root a, a < 2^root.bits →
        ∃ res, walk (sampleAddrs root) (t root) (root.virt a) = .ok res ∧
          (∀ leaf, res = some leaf → leaf.pa = a) ∧
          (ToMap .rpi5 ⟨[⟨0x1000, 0x345000, .usableRam⟩, ⟨0x345000, 0x801000, .reserved⟩],
            by decide, by decide⟩ ⟨0x1f00000000, 0x200000, by decide⟩ a → res.isSome) :=
  identity_of_bounded sampleAddrs .rpi5 _ _ (by decide) (by decide)

end Ralix.Mm
