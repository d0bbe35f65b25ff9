import Ralix.Mm.FrameSpec
import Ralix.Mm.Mapping

/-!
# What the page tables allow

The attributes and the permissions of the leaves that `paging::init` leaves behind, for all regions
and windows, also those that meet in one block or wrap to one entry. The last call that covers a
block decides, and the calls of `map_mmio` come last (`pagingMap_of_tail`). Three results follow.

- `device_iff`: the board's device windows have the Device attribute on `rpi5`. On `qemu` the window
  of the VC's RAM comes after that of the peripherals and covers all of it, so they have it only
  under an extra window.
- `guarded_iff`: what a window has mapped is for EL1 only, and is never executed.
- `freeMapped_of`: the frames that the frame allocator hands out are mapped as Normal memory, unless
  the cap of `rpi5` leaves them out or a device window shares their block.
-/

namespace Ralix.Mm

open Lib Platform

section Last

variable {board : Board} {map : NormalizedMap} {extra : ExtraMmio} {root : Root}

/-- If some of the last calls cover a block, one of them has written its descriptor. -/
theorem pagingMap_of_tail {pre post : List MapCall} (h : pagingCalls board map extra = pre ++ post)
    {b : ℕ} (hcov : ∃ c ∈ post, c.root = root ∧ c.Covers b) :
    ∃ c ∈ post, c.root = root ∧ ∃ i < c.blocks, c.block i = b ∧
      pagingMap board map extra root b = c.desc i := by
  have hmem : (b, applyWrites (fun _ => 0) (writes root pre ++ writes root post) b) ∈
      writes root post := applyWrites_append_of_mem (mem_writes_fst.mpr hcov)
  obtain ⟨c, hc, hroot, i, hi, heq⟩ := mem_writes.mp hmem
  rw [Prod.mk.injEq] at heq
  refine ⟨c, hc, hroot, i, hi, heq.1.symm, ?_⟩
  rw [pagingMap, h, writes_append, heq.2]

/-- The calls for windows, one by one. -/
theorem mem_windowCalls {ws : List Window} {c : MapCall} :
    c ∈ ws.flatMap (fun w => [w.call .user, w.call .kernel]) ↔ ∃ w ∈ ws, ∃ root, c = w.call root := by
  rw [List.mem_flatMap]
  refine exists_congr fun w => and_congr_right fun hw => ?_
  constructor
  · intro hc
    simp only [List.mem_cons, List.not_mem_nil, or_false] at hc
    rcases hc with rfl | rfl
    · exact ⟨_, rfl⟩
    · exact ⟨_, rfl⟩
  · rintro ⟨root | root, rfl⟩
    · simp
    · simp

/-- If some of the last windows cover a block, one of them has written its descriptor. -/
theorem pagingMap_of_windows (map : NormalizedMap) {pre post : List Window}
    (h : windows board extra = pre ++ post) {b : ℕ} (hcov : ∃ w ∈ post, (w.call root).Covers b) :
    ∃ w ∈ post, (w.call root).Covers b ∧ ∃ i, pagingMap board map extra root b =
      (w.call root).desc i := by
  have hcalls : pagingCalls board map extra =
      (map.regions.flatMap (regionCalls board) ++
        pre.flatMap fun w => [w.call .user, w.call .kernel]) ++
      post.flatMap fun w => [w.call .user, w.call .kernel] := by
    rw [pagingCalls, h, List.flatMap_append, List.append_assoc]
  obtain ⟨w, hw, hwcov⟩ := hcov
  have hlast : (w.call root).root = root := rfl
  obtain ⟨c, hc, hroot, i, hi, hblock, heq⟩ := pagingMap_of_tail hcalls
    ⟨w.call root, mem_windowCalls.mpr ⟨w, hw, root, rfl⟩, hlast, hwcov⟩
  obtain ⟨w', hw', root', rfl⟩ := mem_windowCalls.mp hc
  obtain rfl : root' = root := hroot
  exact ⟨w', hw', ⟨i, hi, hblock⟩, i, heq⟩

end Last

/-! ## Leaves -/

section Leaves

variable {s : Root → TableAddrs} {board : Board} {map : NormalizedMap} {extra : ExtraMmio}
  {t : Root → Tables} {root : Root} {a : ℕ}

/-- What a walk of the tables finds, `pagingInit_ok`. -/
def Walks (s : Root → TableAddrs) (board : Board) (map : NormalizedMap) (extra : ExtraMmio)
    (t : Root → Tables) : Prop :=
  ∀ root va, walk (s root) (t root) va =
    .ok (if tableIndex va 39 = l0Index root then leafAt (pagingMap board map extra root) va
      else none)

/-- The descriptor of a leaf is that of the block of the address, which lies below 512 GiB. -/
theorem Walks.leaf (h : Walks s board map extra t) (ha : a < 2^root.bits) {leaf : Leaf}
    (hleaf : walk (s root) (t root) (root.virt a) = .ok (some leaf)) :
    a < 2^39 ∧ pagingMap board map extra root (blockOf a) ≠ 0 ∧
      leaf.desc = pagingMap board map extra root (blockOf a) := by
  rw [h root, Except.ok.injEq] at hleaf
  split_ifs at hleaf with hidx
  unfold leafAt at hleaf
  rw [blockOf_virt] at hleaf
  split_ifs at hleaf with hzero
  cases hleaf
  exact ⟨(tableIndex_virt ha).mp hidx, hzero, rfl⟩

/-- An address below 512 GiB whose block is mapped has a leaf. -/
theorem Walks.exists_leaf (h : Walks s board map extra t) (ha : a < 2^39)
    (hne : pagingMap board map extra root (blockOf a) ≠ 0) :
    ∃ leaf, walk (s root) (t root) (root.virt a) = .ok (some leaf) ∧
      leaf.desc = pagingMap board map extra root (blockOf a) ∧
      leaf.pa = (pagingMap board map extra root (blockOf a) &&& 0x0000FFFFFFE00000) + a % 2^21 := by
  have hbits := root.lt_bits ha
  refine ⟨⟨_, pagingMap board map extra root (blockOf a)⟩, ?_, rfl, rfl⟩
  rw [h root, if_pos ((tableIndex_virt hbits).mpr ha), leafAt, blockOf_virt, virt_mod, if_neg hne]

/-- An address below 512 GiB whose block is not mapped has no leaf. -/
theorem Walks.no_leaf (h : Walks s board map extra t)
    (hzero : pagingMap board map extra root (blockOf a) = 0) :
    walk (s root) (t root) (root.virt a) = .ok none := by
  rw [h root, leafAt, blockOf_virt, if_pos hzero, ite_self]

/-- The fields of a descriptor that a window's call has written. -/
theorem window_desc {w : Window} (hw : w ∈ windows board extra) {leaf : Leaf} {i : ℕ}
    (h : leaf.desc = (w.call root).desc i) :
    leaf.attr = w.attr ∧ leaf.ap = apEl1Rw ∧ leaf.never = uxnBit ||| pxnBit := by
  have hc : w.call root ∈ pagingCalls board ⟨[], by decide, by decide⟩ extra :=
    mem_pagingCalls.mpr (.inr ⟨w, hw, root, rfl⟩)
  obtain ⟨hattr, hap, hsh⟩ := pagingCalls_fields hc
  have hdesc := blockDesc_spec hattr hap hsh
    (wadd (alignDown (w.call root).pstart blockSize) (wmul i blockSize)) (w.call root).xn
  have haccess := blockDesc_access hattr hap hsh
    (wadd (alignDown (w.call root).pstart blockSize) (wmul i blockSize)) (w.call root).xn
  unfold Leaf.attr Leaf.ap Leaf.never
  rw [h]
  exact ⟨hdesc.2.1, haccess.1, haccess.2⟩

/-- The fields of a descriptor that a region's call has written. -/
theorem ram_desc {r : PhysRegion} {leaf : Leaf} {i : ℕ}
    (h : leaf.desc = (ramCall board r root).desc i) : leaf.attr = attrNormal ∧ leaf.never = 0 := by
  have hap : (ramCall board r root).ap < 4 := by
    cases root with
    | kernel => exact (show apEl1Rw < 4 by decide)
    | user => exact (show apEl0Rw < 4 by decide)
  have hdesc := blockDesc_spec (show attrNormal < 8 by decide) hap (show shInner < 4 by decide)
    (wadd (alignDown r.start blockSize) (wmul i blockSize)) false
  have haccess := blockDesc_access (show attrNormal < 8 by decide) hap
    (show shInner < 4 by decide) (wadd (alignDown r.start blockSize) (wmul i blockSize)) false
  unfold Leaf.attr Leaf.never
  rw [h]
  exact ⟨hdesc.2.1, haccess.2⟩

end Leaves

/-! ## Device memory -/

/-- What is mapped of the board's device windows has the Device attribute. -/
def DeviceMapped (s : Root → TableAddrs) (board : Board) (t : Root → Tables) : Prop :=
  ∀ root, ∀ w ∈ boardWindows board, w.attr = attrDevice → ∀ a, w.base ≤ a → a < w.base + w.size →
    ∀ leaf, walk (s root) (t root) (root.virt a) = .ok (some leaf) → leaf.attr = attrDevice

/-- The extra window is mapped over all of the peripherals of `qemu`. -/
def ExtraMmio.CoversPeripherals (extra : ExtraMmio) : Prop :=
  extra.size ≠ 0 ∧ ∀ root a, peripheralBase ≤ a → a < peripheralBase + peripheralSize →
    (extra.window.call root).Covers (blockOf a)

/-- The calls of the board's windows fit, and map physical addresses at their virtual ones. -/
theorem boardWindow_identity {board : Board} {w : Window} (hw : w ∈ boardWindows board)
    (root : Root) : (w.call root).Identity := ⟨rfl, boardWindows_le hw⟩

/-- A window of the board covers the blocks that it reaches into. -/
theorem boardWindow_covers {board : Board} {w : Window} (hw : w ∈ boardWindows board) (root : Root)
    {a : ℕ} (hle : w.base ≤ a) (hlt : a < w.base + w.size) : (w.call root).Covers (blockOf a) :=
  covers_block (boardWindow_identity hw root).fits rfl hle hlt

/-- Below 512 GiB a call covers the blocks from that of its start up to its end, rounded up. -/
theorem MapCall.Identity.covers_le {c : MapCall} (h : c.Identity) {b : ℕ} (hcov : c.Covers b) :
    c.pstart / 2^21 ≤ b ∧ b < (c.pstart + c.size + 2^21 - 1) / 2^21 := by
  obtain ⟨i, hi, hblock⟩ := hcov
  have hle := h.le
  have hv := h.vstart_eq
  have hblocks := blocks_eq h.fits (size_ne_zero hi)
  rw [block, step_eq h.fits hi] at hblock
  unfold blockOf at hblock
  unfold kernelVirtBase at hv
  omega

section Device

variable {s : Root → TableAddrs} {board : Board} {map : NormalizedMap} {extra : ExtraMmio}
  {t : Root → Tables} {root : Root} {a : ℕ}

/-- Every block of a window is mapped by a window, if some window covers it. -/
theorem Walks.window_leaf (h : Walks s board map extra t) (ha : a < 2^root.bits)
    (hcov : ∃ w ∈ windows board extra, (w.call root).Covers (blockOf a)) {leaf : Leaf}
    (hleaf : walk (s root) (t root) (root.virt a) = .ok (some leaf)) :
    ∃ w ∈ windows board extra, (w.call root).Covers (blockOf a) ∧ leaf.attr = w.attr ∧
      leaf.ap = apEl1Rw ∧ leaf.never = uxnBit ||| pxnBit := by
  obtain ⟨-, -, hdesc⟩ := h.leaf ha hleaf
  obtain ⟨w, hw, hwcov, i, heq⟩ := pagingMap_of_windows map (List.nil_append _).symm hcov
  exact ⟨w, hw, hwcov, window_desc hw (hdesc.trans heq)⟩

/-- On `rpi5` all windows are device windows. -/
theorem attr_rpi5 {w : Window} (hw : w ∈ windows .rpi5 extra) : w.attr = attrDevice := by
  rcases mem_windows.mp hw with hw | ⟨-, rfl⟩
  · exact (by decide : ∀ w ∈ boardWindows .rpi5, w.attr = attrDevice) w hw
  · rfl

/-- The window of the VC's RAM on `qemu`. -/
def vcWindow : Window := ⟨0x3c000000, 0x04000000, attrNormal, shInner⟩

/-- It is one of the board's. -/
theorem vcWindow_mem : vcWindow ∈ boardWindows .qemu := by decide

/-- On `qemu` the window of the VC's RAM is the only one that is not a device window. -/
theorem attr_qemu {w : Window} (hw : w ∈ windows .qemu extra) :
    w.attr = attrDevice ∨ w = vcWindow := by
  rcases mem_windows.mp hw with hw | ⟨-, rfl⟩
  · exact (by decide : ∀ w ∈ boardWindows .qemu, w.attr = attrDevice ∨ w = vcWindow) w hw
  · exact .inl rfl

/-- The last windows on `qemu`: that of the VC's RAM, and the extra one. -/
theorem windows_qemu (extra : ExtraMmio) : windows .qemu extra =
    [⟨peripheralBase, peripheralSize, attrDevice, shNone⟩,
      ⟨0x40000000, 0x00200000, attrDevice, shNone⟩] ++
    (vcWindow :: if extra.size ≠ 0 then [extra.window] else []) := rfl

/-- On `qemu`, a peripheral that the extra window does not cover is mapped as Normal memory. -/
theorem Walks.normal_leaf (h : Walks s .qemu map extra t) (hle : peripheralBase ≤ a)
    (hlt : a < peripheralBase + peripheralSize)
    (hnot : ¬ (extra.size ≠ 0 ∧ (extra.window.call root).Covers (blockOf a))) :
    ∃ leaf, walk (s root) (t root) (root.virt a) = .ok (some leaf) ∧ leaf.attr = attrNormal := by
  have hvc : (vcWindow.call root).Covers (blockOf a) := by
    unfold peripheralBase peripheralSize at *
    exact boardWindow_covers vcWindow_mem root
      (show 0x3c000000 ≤ a by omega) (show a < 0x3c000000 + 0x04000000 by omega)
  obtain ⟨w, hw, hwcov, i, heq⟩ := pagingMap_of_windows map
    (windows_qemu extra) ⟨vcWindow, List.mem_cons_self, hvc⟩
  -- The last window that covers the block is that of the VC's RAM.
  have hwvc : w = vcWindow := by
    rcases List.mem_cons.mp hw with hw | hw
    · exact hw
    · split_ifs at hw with hsize
      · rw [List.mem_singleton.mp hw] at hwcov
        exact absurd ⟨hsize, hwcov⟩ hnot
      · cases hw
  subst hwvc
  have hmem : vcWindow ∈ windows .qemu extra := mem_windows.mpr (.inl (by decide))
  have hne : pagingMap .qemu map extra root (blockOf a) ≠ 0 :=
    pagingMap_ne_zero (mem_pagingCalls.mpr (.inr ⟨vcWindow, hmem, root, rfl⟩)) rfl hvc
  have ha : a < 2^39 := by
    unfold peripheralBase peripheralSize at hlt
    omega
  obtain ⟨leaf, hleaf, hdesc, -⟩ := h.exists_leaf ha hne
  exact ⟨leaf, hleaf, (window_desc hmem (hdesc.trans heq)).1⟩

/-- On `qemu`, an extra window over all of the peripherals makes them device memory again. -/
theorem Walks.device_leaf (h : Walks s .qemu map extra t) (hextra : extra.CoversPeripherals)
    {w : Window} (hw : w ∈ boardWindows .qemu) (hattr : w.attr = attrDevice) (hle : w.base ≤ a)
    (hlt : a < w.base + w.size) {leaf : Leaf}
    (hleaf : walk (s root) (t root) (root.virt a) = .ok (some leaf)) : leaf.attr = attrDevice := by
  have hlt39 : a < 2^39 := hlt.trans_le (boardWindows_le hw)
  have hbits := root.lt_bits hlt39
  have hcases : (w.base = peripheralBase ∧ w.size = peripheralSize) ∨
      w.base = 0x40000000 ∧ w.size = 0x00200000 := by
    have key : ∀ w ∈ boardWindows .qemu, w.attr = attrDevice →
        (w.base = peripheralBase ∧ w.size = peripheralSize) ∨
          w.base = 0x40000000 ∧ w.size = 0x00200000 := by decide
    exact key w hw hattr
  rcases hcases with ⟨hbase, hsize⟩ | ⟨hbase, hsize⟩
  · -- The extra window is the last to cover a peripheral.
    rw [hbase] at hle
    rw [hbase, hsize] at hlt
    have hcov := hextra.2 root a hle hlt
    have hsplit : windows .qemu extra = boardWindows .qemu ++ [extra.window] := by
      rw [windows, if_pos hextra.1]
    obtain ⟨w', hw', -, i, heq⟩ := pagingMap_of_windows map hsplit
      ⟨extra.window, List.mem_cons_self, hcov⟩
    obtain ⟨-, -, hdesc⟩ := h.leaf hbits hleaf
    have hmem : w' ∈ windows .qemu extra := hsplit ▸ List.mem_append_right _ hw'
    rw [(window_desc hmem (hdesc.trans heq)).1, List.mem_singleton.mp hw']
    rfl
  · -- The VC's RAM ends below the local interrupt controller.
    obtain ⟨w', hw', hcov', hattr', -⟩ := h.window_leaf hbits
      ⟨w, mem_windows.mpr (.inl hw), boardWindow_covers hw root hle hlt⟩ hleaf
    rw [hattr']
    rcases attr_qemu hw' with hdev | rfl
    · exact hdev
    · have hvc := (boardWindow_identity vcWindow_mem root).covers_le hcov'
      have hend : blockOf a < (0x3c000000 + 0x04000000 + 2^21 - 1) / 2^21 := hvc.2
      unfold blockOf at hend
      omega

/-- The board's device windows have the Device attribute on `rpi5`, and on `qemu` under an extra
window that is mapped over all of the peripherals. -/
theorem Walks.deviceMapped_iff (h : Walks s board map extra t) :
    DeviceMapped s board t ↔ board = .rpi5 ∨ extra.CoversPeripherals := by
  constructor
  · intro hdev
    cases board with
    | rpi5 => exact .inl rfl
    | qemu =>
      refine .inr ?_
      -- what the extra window does not cover keeps the Normal attribute of the video core's window
      have hcov : ∀ root a, peripheralBase ≤ a → a < peripheralBase + peripheralSize →
          extra.size ≠ 0 ∧ (extra.window.call root).Covers (blockOf a) := by
        intro root a hle hlt
        by_contra hnot
        obtain ⟨leaf, hleaf, hattr⟩ := h.normal_leaf hle hlt hnot
        have hdevice := hdev root ⟨peripheralBase, peripheralSize, attrDevice, shNone⟩ (by decide) rfl
          a hle hlt leaf hleaf
        rw [hattr] at hdevice
        exact absurd hdevice (by decide)
      refine ⟨(hcov .kernel peripheralBase le_rfl (by decide)).1, fun root a hle hlt => ?_⟩
      exact (hcov root a hle hlt).2
  · intro hcond root w hw hattr a hle hlt leaf hleaf
    cases board with
    | rpi5 =>
      have hlt39 : a < 2^39 := hlt.trans_le (boardWindows_le hw)
      have hbits := root.lt_bits hlt39
      obtain ⟨w', hw', -, hattr', -⟩ := h.window_leaf hbits
        ⟨w, mem_windows.mpr (.inl hw), boardWindow_covers hw root hle hlt⟩ hleaf
      rw [hattr', attr_rpi5 hw']
    | qemu => exact h.device_leaf (hcond.resolve_left nofun) hw hattr hle hlt hleaf

/-- `init` always returns, and gives the board's device windows the Device attribute exactly on
`rpi5`, or under an extra window over all of the peripherals. -/
theorem device_iff (s : Root → TableAddrs) (board : Board) (map : NormalizedMap)
    (extra : ExtraMmio) :
    ∃ t, pagingInit s board map extra = .ok t ∧
      (DeviceMapped s board t ↔ board = .rpi5 ∨ extra.CoversPeripherals) := by
  obtain ⟨t, hrun, hwalk⟩ := pagingInit_ok s board map extra
  exact ⟨t, hrun, Walks.deviceMapped_iff hwalk⟩

/-- On `qemu` without an extra window the peripherals are mapped as Normal memory. -/
theorem not_deviceMapped_qemu :
    ∃ t, pagingInit sampleAddrs .qemu ⟨[], by decide, by decide⟩ ⟨0, 0, by decide⟩ = .ok t ∧
      ¬ DeviceMapped sampleAddrs .qemu t := by
  obtain ⟨t, hrun, hwalk⟩ := pagingInit_ok sampleAddrs .qemu ⟨[], by decide, by decide⟩
    ⟨0, 0, by decide⟩
  refine ⟨t, hrun, fun h => ?_⟩
  rcases (Walks.deviceMapped_iff hwalk).mp h with h | h
  · cases h
  · exact h.1 rfl

end Device

/-! ## Windows -/

/-- What is mapped of a window is for EL1 only, and is not executed at EL0 or at EL1. -/
def Guarded (s : Root → TableAddrs) (board : Board) (extra : ExtraMmio) (t : Root → Tables) : Prop :=
  ∀ root, ∀ w ∈ windows board extra, ∀ a, w.base ≤ a → a < w.base + w.size → a < 2^root.bits →
    ∀ leaf, walk (s root) (t root) (root.virt a) = .ok (some leaf) →
      leaf.ap = apEl1Rw ∧ leaf.never = uxnBit ||| pxnBit

/-- Where the extra window reaches into RAM below 512 GiB that `init` maps, some window is mapped. -/
def ExtraMmio.Shadows (board : Board) (map : NormalizedMap) (extra : ExtraMmio) : Prop :=
  ∀ root a, a < 2^39 → extra.base ≤ a → a < extra.base + extra.size →
    (∃ r ∈ map.regions, r.kind ≠ .mmio ∧ r.start < mappedEnd board r ∧
      (ramCall board r root).Covers (blockOf a)) →
    ∃ w ∈ windows board extra, (w.call root).Covers (blockOf a)

section Guard

variable {s : Root → TableAddrs} {board : Board} {map : NormalizedMap} {extra : ExtraMmio}
  {t : Root → Tables} {root : Root} {a : ℕ}

/-- An extra window that ends in the address space of both tables is mapped all over. -/
theorem shadows_of_fits (h : ∀ root, (extra.window.call root).Fits) :
    extra.Shadows board map := by
  intro root a _ hle hlt _
  have hsize : extra.size ≠ 0 := by omega
  exact ⟨extra.window, mem_windows.mpr (.inr ⟨hsize, rfl⟩), covers_block (h root) rfl hle hlt⟩

/-- A block that no window covers is as the regions have it. -/
theorem pagingMap_of_uncovered {b : ℕ}
    (hnot : ¬ ∃ w ∈ windows board extra, (w.call root).Covers b) (hne : pagingMap board map extra root b ≠ 0) :
    ∃ r ∈ map.regions, r.kind ≠ .mmio ∧ r.start < mappedEnd board r ∧
      (ramCall board r root).Covers b ∧
      ∃ i, pagingMap board map extra root b = (ramCall board r root).desc i := by
  obtain ⟨c, hc, hroot, i, hi, hblock, heq⟩ := exists_call hne
  rcases mem_pagingCalls.mp hc with ⟨r, hr, hkind, hlt, root', rfl⟩ | ⟨w, hw, root', rfl⟩
  · obtain rfl : root' = root := hroot
    exact ⟨r, hr, hkind, hlt, ⟨i, hi, hblock⟩, i, heq⟩
  · obtain rfl : root' = root := hroot
    exact absurd ⟨w, hw, i, hi, hblock⟩ hnot

/-- Windows are guarded if and only if the extra window is mapped wherever it reaches into mapped
RAM. -/
theorem Walks.windows_guarded_iff (h : Walks s board map extra t) :
    Guarded s board extra t ↔ extra.Shadows board map := by
  constructor
  · intro hguard root a ha hle hlt ⟨r, hr, hkind, hsize, hcov⟩
    -- a block that only a region covers is executable, and the windows are not
    by_contra hnot
    have hne : pagingMap board map extra root (blockOf a) ≠ 0 :=
      pagingMap_ne_zero (mem_pagingCalls.mpr (.inl ⟨r, hr, hkind, hsize, root, rfl⟩)) rfl hcov
    obtain ⟨r', -, -, -, -, i, heq⟩ := pagingMap_of_uncovered hnot hne
    obtain ⟨leaf, hleaf, hdesc, -⟩ := h.exists_leaf ha hne
    have hnever := (ram_desc (hdesc.trans heq)).2
    have hmem : extra.window ∈ windows board extra := mem_windows.mpr (.inr ⟨by omega, rfl⟩)
    have hwindow := (hguard root extra.window hmem a hle hlt (root.lt_bits ha) leaf hleaf).2
    rw [hnever] at hwindow
    exact absurd hwindow (by decide)
  · intro hshadow root w hw a hle hlt hbits leaf hleaf
    obtain ⟨ha, hne, -⟩ := h.leaf hbits hleaf
    have hcov : ∃ w ∈ windows board extra, (w.call root).Covers (blockOf a) := by
      rcases mem_windows.mp hw with hboard | ⟨-, rfl⟩
      · exact ⟨w, hw, boardWindow_covers hboard root hle hlt⟩
      · by_contra hnot
        obtain ⟨r, hr, hkind, hsize, hrcov, -⟩ := pagingMap_of_uncovered hnot hne
        exact hnot (hshadow root a ha hle hlt ⟨r, hr, hkind, hsize, hrcov⟩)
    obtain ⟨-, -, -, -, hap, hnever⟩ := h.window_leaf hbits hcov hleaf
    exact ⟨hap, hnever⟩

/-- `init` always returns, and guards the windows exactly if the extra window is mapped wherever it
reaches into mapped RAM. -/
theorem guarded_iff (s : Root → TableAddrs) (board : Board) (map : NormalizedMap)
    (extra : ExtraMmio) :
    ∃ t, pagingInit s board map extra = .ok t ∧
      (Guarded s board extra t ↔ extra.Shadows board map) := by
  obtain ⟨t, hrun, hwalk⟩ := pagingInit_ok s board map extra
  exact ⟨t, hrun, Walks.windows_guarded_iff hwalk⟩

/-- Two MiB of RAM at 2 GiB. -/
def highRam : NormalizedMap := ⟨[⟨0x80000000, 0x80200000, .usableRam⟩], by decide, by decide⟩

/-- A window of 128 TiB from 1.25 GiB on, whose end wraps in the kernel's half. -/
def wrappingWindow : ExtraMmio := ⟨0x50000000, 2^47, by decide⟩

/-- Under a window whose end wraps, RAM stays executable. -/
theorem not_guarded_wrapping :
    ∃ t, pagingInit sampleAddrs .qemu highRam wrappingWindow = .ok t ∧
      ¬ Guarded sampleAddrs .qemu wrappingWindow t := by
  obtain ⟨t, hrun, hwalk⟩ := pagingInit_ok sampleAddrs .qemu highRam wrappingWindow
  refine ⟨t, hrun, fun h => ?_⟩
  obtain ⟨w, hw, hcov⟩ := (Walks.windows_guarded_iff hwalk).mp h .kernel 0x80000000 (by decide) (by decide)
    (by decide) ⟨⟨0x80000000, 0x80200000, .usableRam⟩, by decide, by decide, by decide, by decide⟩
  rcases mem_windows.mp hw with hboard | ⟨-, rfl⟩
  · have hend := ((boardWindow_identity hboard .kernel).covers_le hcov).2
    have key : ∀ w ∈ boardWindows .qemu, (w.base + w.size + 2^21 - 1) / 2^21 ≤ 513 := by decide
    have hle := key w hboard
    have hblock : blockOf 0x80000000 = 1024 := by decide
    rw [hblock] at hend
    exact absurd (hend.trans_le hle) (by decide)
  · obtain ⟨i, hi, -⟩ := hcov
    rw [show (wrappingWindow.window.call .kernel).blocks = 0 by decide] at hi
    exact absurd hi (Nat.not_lt_zero i)

end Guard

/-! ## Free frames -/

/-- The frame is mapped in the kernel's window, as Normal memory. -/
def NormalFrame (s : Root → TableAddrs) (t : Root → Tables) (i : ℕ) : Prop :=
  ∃ leaf, walk (s .kernel) (t .kernel) (physToVirt (i * pageSize)) = .ok (some leaf) ∧
    leaf.pa = i * pageSize ∧ leaf.attr = attrNormal

/-- The cap of `rpi5` does not leave the frame out: it begins in the first GiB of a usable region that
it belongs to. -/
def UnderCap (map : NormalizedMap) (i : ℕ) : Prop :=
  ∃ r ∈ map.regions, r.kind = .usableRam ∧ r.start / pageSize ≤ i ∧ i < r.stop / pageSize ∧
    i * pageSize < r.start + 0x40000000

/-- A device window of `map_mmio` is mapped over the block of the frame. -/
def UnderDevice (board : Board) (extra : ExtraMmio) (i : ℕ) : Prop :=
  ∃ w ∈ windows board extra, w.attr = attrDevice ∧
    (w.call .kernel).Covers (blockOf (i * pageSize))

section Frames

variable {s : Root → TableAddrs} {board : Board} {map : NormalizedMap} {extra : ExtraMmio}
  {t : Root → Tables} {boot boot' : BootAlloc} {alloc : FrameAllocator}

/-- A frame of a usable region that the cap does not leave out is covered by the region's call. -/
theorem covers_of_frame (hmap : ∀ r ∈ map.regions, r.stop ≤ 2^39) {r : PhysRegion}
    (hr : r ∈ map.regions) {i : ℕ} (hle : r.start / pageSize ≤ i) (hlt : i < r.stop / pageSize)
    (hcap : board = .rpi5 → i * pageSize < r.start + 0x40000000) :
    r.start < mappedEnd board r ∧ (ramCall board r .kernel).Covers (blockOf (i * pageSize)) := by
  have hstop := hmap r hr
  have hmend := mappedEnd_le board r
  unfold pageSize at *
  -- The first page of a region may begin before it.
  obtain ⟨a, hstart, hblock, hrstop, hrcap⟩ : ∃ a, r.start ≤ a ∧ blockOf a = blockOf (i * 4096) ∧
      a < r.stop ∧ (a = r.start ∨ a = i * 4096) := by
    by_cases h : r.start ≤ i * 4096
    · exact ⟨i * 4096, h, rfl, by omega, .inr rfl⟩
    · refine ⟨r.start, le_rfl, ?_, by omega, .inl rfl⟩
      unfold blockOf
      omega
  have hend : a < mappedEnd board r := by
    refine (lt_mappedEnd hstop).mpr ⟨hrstop, fun hboard _ => ?_⟩
    have := hcap hboard
    omega
  have hsize : r.start < mappedEnd board r := hstart.trans_lt hend
  have hid : (ramCall board r .kernel).Identity := by
    refine ⟨rfl, ?_⟩
    show r.start + (mappedEnd board r - r.start) ≤ 2^39
    omega
  refine ⟨hsize, hblock ▸ covers_block hid.fits hid.virt hstart ?_⟩
  show a < r.start + (mappedEnd board r - r.start)
  omega

/-- A frame that is covered, and not by a device window, is mapped as Normal memory. -/
theorem Walks.normalFrame (h : Walks s board map extra t) (hmap : ∀ r ∈ map.regions, r.stop ≤ 2^39)
    {r : PhysRegion} (hr : r ∈ map.regions) (hkind : r.kind = .usableRam) {i : ℕ}
    (hle : r.start / pageSize ≤ i) (hlt : i < r.stop / pageSize)
    (hcap : board = .rpi5 → i * pageSize < r.start + 0x40000000)
    (hdevice : ¬ UnderDevice board extra i) : NormalFrame s t i := by
  have ha : i * pageSize < 2^39 := by
    have hstop := hmap r hr
    unfold pageSize at *
    omega
  obtain ⟨hsize, hcov⟩ := covers_of_frame hmap hr hle hlt hcap
  have hne : pagingMap board map extra .kernel (blockOf (i * pageSize)) ≠ 0 :=
    pagingMap_ne_zero (mem_pagingCalls.mpr
      (.inl ⟨r, hr, by rw [hkind]; decide, hsize, .kernel, rfl⟩)) rfl hcov
  obtain ⟨leaf, hleaf, hdesc, hpa⟩ := h.exists_leaf ha hne
  -- the last call on the block is of a region or of a window, and no device window covers it
  obtain ⟨c, hc, hroot, j, hj, hblock, heq⟩ := exists_call hne
  obtain ⟨hattr, hap, hsh⟩ := pagingCalls_fields hc
  refine ⟨leaf, hleaf, ?_, ?_⟩
  · rw [hpa, heq]
    refine MapCall.Identity.desc_pa ?_ hattr hap hsh hj hblock ha
    rcases mem_pagingCalls.mp hc with ⟨r', hr', -, hsize', root', rfl⟩ | ⟨w, hw, root', rfl⟩
    · refine ⟨rfl, ?_⟩
      have hstop' := hmap r' hr'
      have hmend' := mappedEnd_le board r'
      show r'.start + (mappedEnd board r' - r'.start) ≤ 2^39
      omega
    · rcases mem_windows.mp hw with hboard | ⟨-, rfl⟩
      · exact boardWindow_identity hboard root'
      · obtain rfl : root' = .kernel := hroot
        exact absurd ⟨extra.window, hw, rfl, j, hj, hblock⟩ hdevice
  · rcases mem_pagingCalls.mp hc with ⟨r', -, -, -, root', rfl⟩ | ⟨w, hw, root', rfl⟩
    · exact (ram_desc (hdesc.trans heq)).1
    · obtain rfl : root' = .kernel := hroot
      rw [(window_desc hw (hdesc.trans heq)).1]
      rcases (windows_fields hw).1 with hdev | hnormal
      · exact absurd ⟨w, hw, hdev, j, hj, hblock⟩ hdevice
      · exact hnormal

/-- The frames that `frame::init` leaves free are mapped as Normal memory at their addresses in the
kernel's window, unless the cap of `rpi5` leaves them out, or they share a block with a device
window. -/
theorem freeMapped_of (s : Root → TableAddrs) (board : Board) (map : NormalizedMap)
    (extra : ExtraMmio) (hmap : ∀ r ∈ map.regions, r.stop ≤ 2^39) {boot boot' : BootAlloc}
    {alloc : FrameAllocator} (hframe : frameInit map boot = .ok (some alloc, boot')) :
    ∃ t, pagingInit s board map extra = .ok t ∧ ∀ i ∈ alloc.free,
      (board = .rpi5 → UnderCap map i) → ¬ UnderDevice board extra i → NormalFrame s t i := by
  obtain ⟨t, hrun, hwalk⟩ := pagingInit_ok s board map extra
  refine ⟨t, hrun, fun i hi hcap hdevice => ?_⟩
  have hstop : ∀ r ∈ map.regions, r.kind = .usableRam → r.stop ≤ 2^64 - 4096 :=
    fun r hr _ => (hmap r hr).trans (by decide)
  obtain ⟨r, hr, hkind, hle, hlt⟩ := frameInit_free hstop hframe hi
  cases board with
  | qemu => exact Walks.normalFrame hwalk hmap hr hkind hle hlt nofun hdevice
  | rpi5 =>
    obtain ⟨r', hr', hkind', hle', hlt', hend⟩ := hcap rfl
    exact Walks.normalFrame hwalk hmap hr' hkind' hle' hlt' (fun _ => hend) hdevice

/-- Two GiB of RAM. -/
def twoGiB : NormalizedMap := ⟨[⟨0, 0x80000000, .usableRam⟩], by decide, by decide⟩

/-- The boot allocator's range in it. -/
def twoGiBBoot : BootAlloc := BootAlloc.init 0x200000 0x80000000

/-- The frame allocator comes up, and the frame in the middle of RAM is free. -/
theorem twoGiB_free : ∃ alloc boot', frameInit twoGiB twoGiBBoot = .ok (some alloc, boot') ∧
    0x40000 ∈ alloc.free := by
  have halign : PageAligned twoGiB.regions := by
    unfold PageAligned
    decide
  have hstop : twoGiBBoot.stop ≤ 0x80000000 := by decide
  obtain ⟨alloc, boot', hrun, hspec, -, -, -⟩ :=
    frameInit_spec halign ⟨_, List.mem_singleton_self _, rfl, hstop⟩
  have hsome := frameInit_isSome (by decide) (by decide) (by decide) hrun
  obtain ⟨a, rfl⟩ := Option.isSome_iff_exists.mp hsome
  obtain ⟨hstart, hcur⟩ := frameInit_current hrun
  refine ⟨a, boot', hrun, (hspec.free a rfl _).mpr ⟨⟨_, List.mem_singleton_self _, rfl, ?_⟩, ?_⟩⟩
  · decide
  · have hle : boot'.current ≤ 0x210000 := hcur.trans (by decide)
    rintro ⟨-, hlt⟩
    rw [alignUp_page (by omega)] at hlt
    unfold pageSize at hlt
    omega

/-- `freeMapped_of` on two GiB of RAM. -/
theorem freeMapped_of_twoGiB : ∃ alloc boot', frameInit twoGiB twoGiBBoot = .ok (some alloc, boot') ∧
    ∃ t, pagingInit sampleAddrs .rpi5 twoGiB ⟨0, 0, by decide⟩ = .ok t ∧ ∀ i ∈ alloc.free,
      (Board.rpi5 = .rpi5 → UnderCap twoGiB i) → ¬ UnderDevice .rpi5 ⟨0, 0, by decide⟩ i →
        NormalFrame sampleAddrs t i := by
  obtain ⟨alloc, boot', hrun, -⟩ := twoGiB_free
  exact ⟨alloc, boot', hrun, freeMapped_of sampleAddrs .rpi5 twoGiB _ (by decide) hrun⟩

/-- With two GiB of RAM, the frame at 1 GiB is free. On `rpi5` it is past the cap, and not mapped, and
on `qemu` it is under the window of the local interrupt controller. -/
theorem not_freeMapped : ∃ alloc boot', frameInit twoGiB twoGiBBoot = .ok (some alloc, boot') ∧
    0x40000 ∈ alloc.free ∧ ∀ board, ∃ t,
      pagingInit sampleAddrs board twoGiB ⟨0, 0, by decide⟩ = .ok t ∧
        ¬ NormalFrame sampleAddrs t 0x40000 := by
  obtain ⟨alloc, boot', hrun, hfree⟩ := twoGiB_free
  refine ⟨alloc, boot', hrun, hfree, fun board => ?_⟩
  obtain ⟨t, hinit, hwalk⟩ := pagingInit_ok sampleAddrs board twoGiB ⟨0, 0, by decide⟩
  refine ⟨t, hinit, ?_⟩
  rintro ⟨leaf, hleaf, -, hattr⟩
  have hblock : blockOf (0x40000 * pageSize) = 512 := by decide
  have hbits : 0x40000 * pageSize < 2^Root.kernel.bits := by decide
  cases board with
  -- On rpi5 the frame is above the first GiB, which is all that is mapped of a region; on qemu it
  -- is under the window of the local peripherals.
  | rpi5 =>
    obtain ⟨-, hne, -⟩ := Walks.leaf hwalk hbits hleaf
    obtain ⟨c, hc, hroot, i, hi, hci, -⟩ := exists_call hne
    have hcov : c.Covers 512 := ⟨i, hi, hci.trans hblock⟩
    have hid := identity_of_mem (by decide) (by decide) hc
    obtain ⟨hle, hlt⟩ := hid.covers_le hcov
    rcases mem_pagingCalls.mp hc with ⟨r, hr, -, -, root, rfl⟩ | ⟨w, hw, root, rfl⟩
    · obtain rfl := List.mem_singleton.mp hr
      exact absurd hlt (show ¬ 512 < (0 + 0x40000000 + 2^21 - 1) / 2^21 by decide)
    · rcases mem_windows.mp hw with hboard | ⟨hsize, -⟩
      · have key : ∀ w ∈ boardWindows .rpi5, 512 < w.base / 2^21 := by decide
        exact absurd hle (Nat.not_le.mpr (key w hboard))
      · exact hsize rfl
  | qemu =>
    have hlocal : ⟨0x40000000, 0x00200000, attrDevice, shNone⟩ ∈ boardWindows .qemu := by decide
    obtain ⟨w, hw, hcov, hwattr, -⟩ := Walks.window_leaf hwalk hbits
      ⟨_, by decide, boardWindow_covers hlocal .kernel (by decide) (by decide)⟩ hleaf
    rw [hattr] at hwattr
    rcases attr_qemu hw with hdev | rfl
    · rw [hdev] at hwattr
      exact absurd hwattr (by decide)
    · have hend := ((boardWindow_identity vcWindow_mem .kernel).covers_le hcov).2
      rw [hblock] at hend
      exact absurd hend (by decide)

end Frames

end Ralix.Mm
