import Ralix.Dtb.ParseTree
import Ralix.Dtb.Uart
import Ralix.Mm.Attributes
import Ralix.Mm.BootRange
import Ralix.Mm.FrameRuns

/-!
# Memory after boot

All of `mm::init`, from the DTB to the kernel's heap: the memory map, the frame allocator, the page
tables, and `heap::init`, which takes 8 MiB of frames in a row. `mmInit_tree` is what they come to
together, in terms of the tree that the DTB holds.

`manage` is what follows `normalize`. The frames that are free then are the pages of usable RAM but
for those of the boot allocator and of the heap (`Managed.Sound`). The heap is the first run of that
length, so it begins with its region, or where the bitmap ends, and the cap of `rpi5` never leaves it
unmapped.
-/

namespace Ralix.Mm

open Lib Extent Platform MemoryMap Dtb FrameAllocator

/-- `HEAP_SIZE`. -/
def heapSize : ℕ := 8 * 1024 * 1024

/-- The number of frames of the heap. -/
def heapPages : ℕ := heapSize / pageSize

/-- `init_kernel_heap`: the address and `FRAME_ALLOC` after it. -/
def initKernelHeap (frames : Option FrameAllocator) : Exec (Option ℕ × Option FrameAllocator) :=
  match frames with
  | none => .ok (none, none)
  | some a => do
    let (paddr, a) ← a.allocContiguous heapPages
    return (paddr.map physToVirt, some a)

/-- What `mm::init` leaves: the boot allocator, `FRAME_ALLOC`, the page tables, and the address of the
heap. -/
structure Managed where
  boot : BootAlloc
  frames : Option FrameAllocator
  tables : Root → Tables
  heap : Option ℕ

/-- `mm::init` from the normalized map on. It returns early if it finds no end for the boot
allocator. -/
def manage (s : Root → TableAddrs) (board : Board) (map : NormalizedMap) (extra : ExtraMmio)
    (kernelEnd : UInt64) : Exec (Option Managed) :=
  let (start, stop) := bootRange map kernelEnd
  if stop = 0 then .ok none
  else do
    let (frames, boot) ← frameInit map (BootAlloc.init start stop)
    let tables ← pagingInit s board map extra
    let (heap, frames) ← initKernelHeap frames
    return some ⟨boot, frames, tables, heap⟩

/-- `EXTRA_MMIO`. On `rpi5` it is the block of the UART. -/
def extraMmio (uart : Option UartInfo) : ExtraMmio :=
  match uart with
  | some info =>
    ⟨alignDown info.addr.toNat 0x200000, 0x200000,
      (Nat.and_le_left.trans_lt info.addr.toNat_lt), by decide⟩
  | none => ⟨0, 0, by decide⟩

/-- The UART that `mm::init` looks for, which `qemu` does not. -/
def boardUart (board : Board) (mem : Memory) (dtbPa : ℕ) : Exec (Option UartInfo) :=
  match board with
  | .qemu => .ok none
  | .rpi5 => findUart mem dtbPa

/-- `mm::init`. -/
def mmInit (s : Root → TableAddrs) (board : Board) (info : KernelPhysInfo) (mem : Memory)
    (dtbPa : UInt64) : Exec (Option Managed) := do
  let (dtb, map) ← parse mem dtbPa.toNat MemoryMap.new
  let uart ← boardUart board mem dtbPa.toNat
  let map := map.addAll (imageCalls board info dtbPa dtb ++ [mmioCall board])
  manage s board map.normalize (extraMmio uart) info.kernelEnd

namespace Managed

/-- The frames that the boot allocator has used. -/
def bootFrames (m : Managed) : Finset ℕ :=
  Finset.Ico (m.boot.start / pageSize) (alignUp m.boot.current pageSize / pageSize)

/-- The frames of the heap. -/
def heapFrames (m : Managed) : Finset ℕ :=
  match m.heap with
  | some vaddr => Finset.Ico (virtToPhys vaddr / pageSize) (virtToPhys vaddr / pageSize + heapPages)
  | none => ∅

/-- The frame is usable RAM that nothing has been put into. -/
def Spare (m : Managed) (regions : List PhysRegion) (i : ℕ) : Prop :=
  PageUsable regions i ∧ i ∉ m.bootFrames ∧ i ∉ m.heapFrames

/-- What `mm::init` leaves is sound for the ranges that it has registered and the page after the
kernel. -/
structure Sound (m : Managed) (regions : List PhysRegion) (s : Root → TableAddrs) (board : Board)
    (extra : ExtraMmio) (kernelStop : ℕ) : Prop where
  /-- The boot allocator has used no more than 16 MiB from that page on. -/
  boot : m.frames ≠ none → ∀ i ∈ m.bootFrames, kernelStop ≤ i ∧ i < kernelStop + 4096
  /-- The free frames are the spare ones, all of them. -/
  free : ∀ a, m.frames = some a → ∀ i, i ∈ a.free ↔ m.Spare regions i
  /-- The heap is usable RAM beside the bitmap, and mapped in the kernel's window as Normal memory
  where no device window is. -/
  heap : ∀ i ∈ m.heapFrames, PageUsable regions i ∧ i ∉ m.bootFrames ∧
    (¬ UnderDevice board extra i → NormalFrame s m.tables i)
  /-- Without a heap, there was no run of frames for it. -/
  noHeap : m.heap = none → m.frames ≠ none →
    ∀ idx, ∃ i, idx ≤ i ∧ i < idx + heapPages ∧ ¬ m.Spare regions i
  /-- In every run from here, a call returns, with spare frames that nobody holds. -/
  later : ∀ f, FrameRun m.frames f → ∀ op : FrameOp, op.Allowed f.held →
    ∃ res f', op.run f = .ok (res, f') ∧ ∀ p, res = some p → ∃ idx, p = idx * pageSize ∧
      ∀ i, idx ≤ i → i < idx + op.pages → m.Spare regions i ∧ i ∉ f.held

end Managed

/-- What `normalize` needs of the registered ranges to keep all of them. -/
structure Fits (regions : List PhysRegion) : Prop where
  /-- Page tables of one L1 table each reach 512 GiB. -/
  ends : ∀ r ∈ regions, r.stop ≤ 2^39
  count : regions.length ≤ maxRegions
  room : ∀ a, Needed regions a → spanStarts regions a ≤ maxRegions

/-- 64 ranges always fit. -/
theorem Fits.of_length {regions : List PhysRegion} (hends : ∀ r ∈ regions, r.stop ≤ 2^39)
    (h : regions.length ≤ 64) : Fits regions := by
  have hlen : (endpoints regions).length = regions.length * 2 := by
    unfold endpoints
    rw [List.length_flatMap]
    simp
  have hdedup := (List.dedup_sublist (endpoints regions)).length_le
  refine ⟨hends, by unfold maxRegions; omega, fun a _ => spanStarts_le_of_room ?_ a⟩
  unfold maxRegions
  omega

/-- A map that holds the registered ranges. -/
theorem Fits.regions_addAll {calls : List Call} (h : Fits (calls.filterMap Call.stored)) :
    (MemoryMap.new.addAll calls).regions = calls.filterMap Call.stored := by
  rw [MemoryMap.regions_addAll]
  exact List.take_of_length_le h.count

/-! ## Usable frames -/

section Usable

variable {m : MemoryMap} {i : ℕ}

/-- No range reaches the last page of the address space. -/
theorem Fits.stop_le (h : Fits m.regions) : ∀ r ∈ m.regions, r.stop ≤ 2^64 - 4096 :=
  fun r hr => (h.ends r hr).trans (by decide)

/-- Frames in a row of usable pages are in one usable region of `normalize`. -/
theorem Fits.exists_region (h : Fits m.regions) {idx n : ℕ} (hn : 0 < n)
    (hpages : ∀ i, idx ≤ i → i < idx + n → PageUsable m.regions i) :
    ∃ r ∈ m.normalize.regions, r.kind = .usableRam ∧ r.start ≤ idx * pageSize ∧
      (idx + n) * pageSize ≤ r.stop := by
  refine normalize_interval h.stop_le ?_ (Nat.mul_mod_left ..) (Nat.mul_mod_left ..) fun a hlo hhi => ?_
  · exact Nat.mul_lt_mul_of_pos_right (by omega) (by decide)
  · have hpage : PageUsable m.regions (a / pageSize) :=
      hpages _ ((Nat.le_div_iff_mul_le (by decide)).mpr hlo) (Nat.div_lt_of_lt_mul (by rwa [Nat.mul_comm]))
    obtain ⟨hsome, hall⟩ := hpage a rfl
    exact keptAt_eq_some.mpr ⟨h.room a (.inr hpage), kindAt_of_usable hsome hall⟩

/-- The frames of usable regions are the usable pages. -/
theorem Fits.usableFrame_iff (h : Fits m.regions) :
    UsableFrame m.normalize.regions i ↔ PageUsable m.regions i := by
  constructor
  · rintro ⟨r, hr, hk, hlo, hhi⟩ a ha
    have hc : r.Contains a := by
      unfold pageSize at *
      exact ⟨by omega, by omega⟩
    obtain ⟨hkind, -⟩ := kindAt_of_mem_normalize h.stop_le hr hc
    rw [hk] at hkind
    exact usable_of_kindAt hkind
  · intro hpage
    obtain ⟨r, hr, hk, hlo, hhi⟩ := h.exists_region Nat.one_pos fun j (hlo : i ≤ j) hhi => by
      rwa [show j = i by omega]
    exact ⟨r, hr, hk, hlo, by rwa [Nat.add_mul, Nat.one_mul] at hhi⟩

end Usable

/-! ## The heap -/

/-- `alloc_contiguous` takes the first run of free frames, or there is none. -/
theorem FrameAllocator.allocContiguous_first {a : FrameAllocator} (hv : a.Valid) {pages : ℕ}
    (hp : 0 < pages) : ∃ res a', a.allocContiguous pages = .ok (res, a') ∧ Takes a pages res a' ∧
      (res = none → ∀ idx, ¬ Finset.Ico idx (idx + pages) ⊆ a.free) ∧
      ∀ idx, res = some (idx * pageSize) → ∀ j, Finset.Ico j (j + pages) ⊆ a.free → idx ≤ j := by
  -- A run of free frames ends with the last frame or before.
  have hbound : ∀ {j}, Finset.Ico j (j + pages) ⊆ a.free → j + pages ≤ a.frameCount := by
    intro j hj
    have hlast := hv _ (hj (Finset.mem_Ico.mpr (show j ≤ j + pages - 1 ∧ _ by omega)))
    omega
  obtain ⟨res, a', hrun, htakes, hnone, hfirst⟩ := contiguousLoop_ok (a := a) pages 0
    (a.frameCount + 1 - pages) hp (by omega)
  refine ⟨res, a', ?_, htakes, fun hres idx hidx => ?_, fun idx hres j hj => ?_⟩
  · rw [allocContiguous, if_neg hp.ne', hrun]
  · have hle := hbound hidx
    exact hnone hres idx (Nat.zero_le _) (by omega) hidx
  · by_contra hlt
    exact (hfirst _ hres).2 j (Nat.zero_le _)
      (Nat.mul_lt_mul_of_pos_right (Nat.not_le.mp hlt) (by decide)) hj

/-- The frames behind an address that the kernel's window has. -/
theorem virtToPhys_physToVirt {p : ℕ} (h : p < 2^64) : virtToPhys (physToVirt p) = p := by
  unfold virtToPhys physToVirt wsub wadd kernelVirtBase
  omega

/-- The first run of free frames of at most 8 MiB is in the first GiB of its region. It begins with the
region, or else the bitmap is near the beginning of the region, and the run is not far after that. -/
theorem Fits.underCap {m : MemoryMap} (h : Fits m.regions) {a : FrameAllocator} {start stop idx pages : ℕ}
    (hpos : 0 < pages) (hle : pages ≤ 2048)
    (hfree : ∀ i, i ∈ a.free ↔ PageUsable m.regions i ∧ i ∉ Finset.Ico start stop)
    (hstop : stop ≤ start + 4096) (hrun : Finset.Ico idx (idx + pages) ⊆ a.free)
    (hfirst : ∀ j, Finset.Ico j (j + pages) ⊆ a.free → idx ≤ j) {i : ℕ}
    (hi : i ∈ Finset.Ico idx (idx + pages)) : UnderCap m.normalize i := by
  obtain ⟨r, hr, hk, hlo, hhi⟩ := h.exists_region hpos fun i hlo hhi =>
    ((hfree i).mp (hrun (Finset.mem_Ico.mpr ⟨hlo, hhi⟩))).1
  have halign : PageAligned m.normalize.regions := fun _ hr hk => normalize_aligned h.stop_le hr hk
  have hfirstPage := (halign r hr hk).1
  unfold pageSize at hlo hhi hfirstPage
  have husable : ∀ i, r.start / 4096 ≤ i → i < idx + pages → PageUsable m.regions i := by
    intro i hlo' hhi'
    have hend : i < r.stop / 4096 := by omega
    exact h.usableFrame_iff.mp ((Mm.usableFrame_iff halign).mpr ⟨r, hr, hk, hlo', hend⟩)
  have hnear : idx ≤ r.start / 4096 + 6144 := by
    by_contra hfar
    -- Otherwise the run from the region's first frame on is not free, because of the bitmap,
    have hnot : ¬ Finset.Ico (r.start / 4096) (r.start / 4096 + pages) ⊆ a.free := by
      intro hsub
      have hfirst' := hfirst _ hsub
      omega
    obtain ⟨j, hj, hjfree⟩ := Finset.not_subset.mp hnot
    rw [Finset.mem_Ico] at hj
    have hbitmap : start ≤ j ∧ j < stop := by
      by_contra hout
      exact hjfree ((hfree j).mpr ⟨husable j hj.1 (by omega), by rwa [Finset.mem_Ico]⟩)
    -- and the run from the bitmap's end on, or from there, is free.
    have hafter := hfirst (max stop (r.start / 4096)) fun k hk => by
      rw [Finset.mem_Ico] at hk
      refine (hfree k).mpr ⟨husable k (by omega) (by omega), ?_⟩
      rw [Finset.mem_Ico]
      omega
    omega
  rw [Finset.mem_Ico] at hi
  refine ⟨r, hr, hk, ?_, ?_, ?_⟩
  · unfold pageSize
    omega
  · unfold pageSize
    omega
  · unfold pageSize
    omega

/-! ## From the map on -/

/-- Where all free frames have a property, so do those that are returned in any run, and nobody holds
them. -/
theorem returns_of_free {frames : Option FrameAllocator} (hv : ∀ a, frames = some a → a.Valid)
    {P : ℕ → Prop} (hfree : ∀ a, frames = some a → ∀ i ∈ a.free, P i) {f : Frames}
    (hf : FrameRun frames f) {op : FrameOp} (hop : op.Allowed f.held) :
    ∃ res f', op.run f = .ok (res, f') ∧ ∀ p, res = some p → ∃ idx, p = idx * pageSize ∧
      ∀ i, idx ≤ i → i < idx + op.pages → P i ∧ i ∉ f.held := by
  obtain ⟨res, f', hrun, -, hres⟩ := (hf.inv hv).run hop
  refine ⟨res, f', hrun, fun p hp => ?_⟩
  obtain ⟨idx, a, hidx, ha, hall⟩ := hres p hp
  exact ⟨idx, hidx, fun i hlo hhi => ⟨hfree a ha i (hall i hlo hhi).1, (hall i hlo hhi).2⟩⟩

section Manage

variable {m : MemoryMap} {s : Root → TableAddrs} {board : Board} {extra : ExtraMmio} {t : Root → Tables}
  {boot : BootAlloc} {a : FrameAllocator}

/-- There are at most as many frames as in 512 GiB. -/
theorem Fits.frameCount_le (h : Fits m.regions) : initFrameCount m.normalize.regions ≤ 2^27 := by
  have hmax : maxUsableEnd m.normalize.regions ≤ 2^39 := by
    rcases (maxUsableEnd_spec m.normalize.regions).1 with hzero | ⟨r, hr, -, hstop⟩
    · rw [hzero]
      exact Nat.zero_le _
    · rw [← hstop]
      exact normalize_stop_le (by decide) h.ends r hr
  unfold initFrameCount
  rw [alignUp_page (by omega)]
  unfold pageSize
  omega

/-- A page boundary is a boundary of doublewords. -/
theorem alignUp_eight {n : ℕ} (haligned : n % 4096 = 0 ∧ n < 2^64) : alignUp n 8 = n := by
  rw [show 8 = 2^3 from rfl, alignUp_spec (by decide) (by omega)]
  omega

/-- The bitmap for 512 GiB takes at most 16 MiB. -/
theorem Fits.bitmap_le (h : Fits m.regions) {boot₀ : BootAlloc}
    (haligned : boot₀.current % 4096 = 0 ∧ boot₀.current < 2^64)
    (hframe : frameInit m.normalize boot₀ = .ok (some a, boot)) :
    boot.current ≤ boot₀.current + 2^24 := by
  obtain ⟨-, hcur⟩ := frameInit_current hframe
  have hcount := h.frameCount_le
  rw [alignUp_eight haligned] at hcur
  omega

/-- What is sound without a heap. -/
theorem sound_none {kernelStop : ℕ} (hv : a.Valid)
    (hboot : ∀ i ∈ Finset.Ico (boot.start / pageSize) (alignUp boot.current pageSize / pageSize),
      kernelStop ≤ i ∧ i < kernelStop + 4096)
    (hfree : ∀ i, i ∈ a.free ↔ PageUsable m.regions i ∧
      i ∉ Finset.Ico (boot.start / pageSize) (alignUp boot.current pageSize / pageSize))
    (hnone : ∀ idx, ¬ Finset.Ico idx (idx + heapPages) ⊆ a.free) :
    Managed.Sound ⟨boot, some a, t, none⟩ m.regions s board extra kernelStop := by
  have hspare : ∀ i, i ∈ a.free ↔ Managed.Spare ⟨boot, some a, t, none⟩ m.regions i := fun i =>
    (hfree i).trans (and_congr_right fun _ => (and_iff_left (Finset.notMem_empty i)).symm)
  refine ⟨fun _ => hboot, ?_, fun i hi => absurd hi (Finset.notMem_empty i), fun _ _ idx => ?_,
    fun f hf op hop => ?_⟩
  · rintro _ ⟨⟩
    exact hspare
  · obtain ⟨i, hi, hnot⟩ := Finset.not_subset.mp (hnone idx)
    rw [Finset.mem_Ico] at hi
    exact ⟨i, hi.1, hi.2, fun h => hnot ((hspare i).mpr h)⟩
  · refine returns_of_free ?_ ?_ hf hop
    · rintro _ ⟨⟩
      exact hv
    · rintro _ ⟨⟩ i hi
      exact (hspare i).mp hi

/-- What is sound with a heap. -/
theorem sound_some (h : Fits m.regions) (hv : a.Valid) (hwalk : Walks s board m.normalize extra t)
    (hfree : ∀ i, i ∈ a.free ↔ PageUsable m.regions i ∧
      i ∉ Finset.Ico (boot.start / pageSize) (alignUp boot.current pageSize / pageSize))
    {kernelStop : ℕ} (hstart : boot.start / pageSize = kernelStop)
    (hbitmap : alignUp boot.current pageSize / pageSize ≤ kernelStop + 4096) {idx : ℕ} {a' : FrameAllocator} (hrun : Finset.Ico idx (idx + heapPages) ⊆ a.free)
    (hmark : Marked a a' (a.free \ Finset.Ico idx (idx + heapPages)))
    (hfirst : ∀ j, Finset.Ico j (j + heapPages) ⊆ a.free → idx ≤ j) :
    Managed.Sound ⟨boot, some a', t, some (physToVirt (idx * pageSize))⟩ m.regions s board extra
      kernelStop := by
  have hlt : idx < a.frameCount := hv idx (hrun (Finset.mem_Ico.mpr ⟨le_rfl, by
    exact Nat.lt_add_of_pos_right (by decide)⟩))
  have hheap : Managed.heapFrames ⟨boot, some a', t, some (physToVirt (idx * pageSize))⟩ =
      Finset.Ico idx (idx + heapPages) := by
    have hcount := a.count_le
    show Finset.Ico (virtToPhys (physToVirt _) / pageSize) _ = _
    rw [virtToPhys_physToVirt (by unfold pageSize; omega), Nat.mul_div_cancel _ (by decide)]
  have hspare : ∀ i, i ∈ a'.free ↔
      Managed.Spare ⟨boot, some a', t, some (physToVirt (idx * pageSize))⟩ m.regions i := by
    intro i
    rw [hmark.free_eq, Finset.mem_sdiff, hfree, Managed.Spare, hheap, and_assoc]
    rfl
  refine ⟨fun _ i hi => ?_, ?_, fun i hi => ?_, nofun, fun f hf op hop => ?_⟩
  · obtain ⟨hlo, hhi⟩ := Finset.mem_Ico.mp hi
    exact ⟨hstart.symm.trans_le hlo, hhi.trans_le hbitmap⟩
  · rintro _ ⟨⟩
    exact hspare
  · rw [hheap] at hi
    obtain ⟨hpage, hboot⟩ := (hfree i).mp (hrun hi)
    obtain ⟨r, hr, hk, hlo, hhi, hcap⟩ := h.underCap (by decide) (by decide) hfree (hstart ▸ hbitmap) hrun hfirst hi
    exact ⟨hpage, hboot, hwalk.normalFrame (normalize_stop_le (by decide) h.ends) hr hk hlo hhi
      fun _ => hcap⟩
  · refine returns_of_free ?_ ?_ hf hop
    · rintro _ ⟨⟩ i hi
      rw [hmark.free_eq] at hi
      rw [hmark.count]
      exact hv i (Finset.sdiff_subset hi)
    · rintro _ ⟨⟩ i hi
      exact (hspare i).mp hi

/-- `manage` returns, and what it leaves is sound. -/
theorem Fits.manage_ok (h : Fits m.regions) (s : Root → TableAddrs) (board : Board) (extra : ExtraMmio)
    (kernelEnd : UInt64) : ∃ r, manage s board m.normalize extra kernelEnd = .ok r ∧
      ∀ x, r = some x →
        x.Sound m.regions s board extra (alignUp kernelEnd.toNat pageSize / pageSize) := by
  unfold manage bootRange
  dsimp only
  set start := alignUp kernelEnd.toNat pageSize
  set stop := bootRangeEnd m.normalize.regions start with hstop
  by_cases hzero : stop = 0
  · rw [if_pos hzero]
    exact ⟨none, rfl, nofun⟩
  rw [if_neg hzero]
  have halign : PageAligned m.normalize.regions := fun _ hr hk => normalize_aligned h.stop_le hr hk
  obtain ⟨r, hr, hk, hend⟩ := bootRangeEnd_spec hzero
  obtain ⟨frames, boot, hframe, hspec, hstart, hbstop, -⟩ := frameInit_spec halign
    ⟨r, hr, hk, (BootAlloc.init_stop start stop).trans_le hend.le⟩
  obtain ⟨t, hpaging, hwalk⟩ := pagingInit_ok s board m.normalize extra
  rw [hframe, Exec.ok_bind, hpaging, Exec.ok_bind]
  cases frames with
  | none =>
    refine ⟨_, rfl, ?_⟩
    rintro _ ⟨⟩
    refine ⟨fun hne => absurd rfl hne, fun a ha => ?_, fun i hi => absurd hi (Finset.notMem_empty i),
      fun _ hne => absurd rfl hne, fun f hf op hop => returns_of_free ?_ ?_ hf hop⟩
    · cases ha
    · nofun
    · nofun
  | some a =>
    have hv := hspec.valid a rfl
    -- The boot allocator's frames begin with its range, and the bitmap ends them.
    have haligned : alignUp start pageSize % 4096 = 0 ∧ alignUp start pageSize < 2^64 :=
      alignUp_dvd start (k := 12) (by decide)
    have hcur := h.bitmap_le haligned hframe
    have hle : boot.current ≤ 2^39 := by
      refine ((hspec.storage a rfl).2.trans_eq hbstop).trans ?_
      rw [BootAlloc.init_stop, hstop, hend]
      exact normalize_stop_le (by decide) h.ends r hr
    obtain ⟨hmod, hlt⟩ : start % 4096 = 0 ∧ start < 2^64 :=
      alignUp_dvd kernelEnd.toNat (k := 12) (by decide)
    have hkernel : boot.start = start := by
      rw [hstart, BootAlloc.init_start]
      exact alignUp_page_of_dvd hlt hmod
    have hbitmap : alignUp boot.current pageSize / pageSize ≤ start / pageSize + 4096 := by
      rw [alignUp_page (by omega)]
      rw [BootAlloc.init_current, ← BootAlloc.init_start start stop, ← hstart, hkernel] at hcur
      unfold pageSize
      omega
    have hfree : ∀ i, i ∈ a.free ↔ PageUsable m.regions i ∧
        i ∉ Finset.Ico (boot.start / pageSize) (alignUp boot.current pageSize / pageSize) := by
      intro i
      rw [hspec.free a rfl, h.usableFrame_iff, Finset.mem_Ico]
    obtain ⟨res, a', hrun, htakes, hnone, hfirst⟩ :=
      allocContiguous_first hv (show 0 < heapPages by decide)
    simp only [initKernelHeap, hrun, Exec.ok_bind, Exec.pure_eq]
    refine ⟨_, rfl, ?_⟩
    rintro _ ⟨⟩
    cases res with
    | none =>
      obtain rfl : a' = a := htakes
      refine sound_none hv (fun i hi => ?_) hfree (hnone rfl)
      rw [hkernel, Finset.mem_Ico] at hi
      exact ⟨hi.1, hi.2.trans_le hbitmap⟩
    | some p =>
      obtain ⟨idx, rfl, hsub, hmark⟩ := htakes
      exact sound_some h hv hwalk hfree (by rw [hkernel]) hbitmap hsub hmark (hfirst idx rfl)

/-- With 24 MiB of usable RAM after the kernel, `manage` brings up the frame allocator and the heap. -/
theorem Fits.manage_up (h : Fits m.regions) (s : Root → TableAddrs) (board : Board) (extra : ExtraMmio)
    {kernelEnd : UInt64} (hpos : alignUp kernelEnd.toNat pageSize ≠ 0)
    (hpages : ∀ i, alignUp kernelEnd.toNat pageSize / pageSize ≤ i →
      i < alignUp kernelEnd.toNat pageSize / pageSize + 6144 → PageUsable m.regions i) :
    ∃ x, manage s board m.normalize extra kernelEnd = .ok (some x) ∧ x.frames.isSome ∧
      x.heap.isSome := by
  obtain ⟨res, hres, hsound⟩ := h.manage_ok s board extra kernelEnd
  obtain ⟨r, hr, hk, hlo, hhi⟩ := h.exists_region (by decide) hpages
  have haligned : alignUp kernelEnd.toNat pageSize % 4096 = 0 ∧
      alignUp kernelEnd.toNat pageSize < 2^64 := alignUp_dvd kernelEnd.toNat (k := 12) (by decide)
  generalize hkernel : alignUp kernelEnd.toNat pageSize = start at *
  -- The boot allocator's range is the rest of the region, and has room for the bitmap.
  have hstop : bootRangeEnd m.normalize.regions start = r.stop :=
    bootRangeEnd_of_contains (normalize_apart h.stop_le) hr hk
      ⟨by unfold pageSize at hlo; omega, by unfold pageSize at hhi; omega⟩
  have hne : r.stop ≠ 0 := by
    unfold pageSize at hhi
    omega
  have hrun := hres
  simp only [manage, bootRange, hkernel, hstop, if_neg hne] at hrun
  obtain ⟨⟨frames, boot⟩, hframe, hrun⟩ := Exec.bind_eq_ok.mp hrun
  obtain ⟨t, -, hrun⟩ := Exec.bind_eq_ok.mp hrun
  obtain ⟨⟨heap, frames'⟩, hheap, hrun⟩ := Exec.bind_eq_ok.mp hrun
  cases hrun
  have hinit : (BootAlloc.init start r.stop).current = start := alignUp_page_of_dvd haligned.2 haligned.1
  have hsome : frames.isSome := by
    refine frameInit_isSome ?_ ?_ ?_ hframe
    · exact Nat.ne_of_gt ((Nat.pos_of_ne_zero hne).trans_le ((maxUsableEnd_spec _).2 r hr hk))
    · rwa [hinit, alignUp_eight haligned]
    · have hcount := h.frameCount_le
      rw [hinit, alignUp_eight haligned, BootAlloc.init_stop]
      unfold pageSize at hhi
      omega
  obtain ⟨a, rfl⟩ := Option.isSome_iff_exists.mp hsome
  obtain ⟨⟨p, a'⟩, -, hheap⟩ := Exec.bind_eq_ok.mp hheap
  cases hheap
  refine ⟨_, hres, rfl, Option.isSome_iff_ne_none.mpr fun hnone => ?_⟩
  -- The first frame after the bitmap would have had room for the heap.
  have hx := hsound _ rfl
  obtain ⟨i, hi, hi', hnot⟩ := hx.noHeap hnone (Option.some_ne_none a') (start / pageSize + 4096)
  have hlt : i < start / pageSize + 6144 := hi'
  refine hnot ⟨hpages i (by omega) hlt, fun hboot => ?_, ?_⟩
  · have hbefore := (hx.boot (Option.some_ne_none a') i hboot).2
    omega
  · rw [Managed.heapFrames, hnone]
    exact Finset.notMem_empty i

end Manage

/-! ## From the DTB on -/

/-- The ranges that `mm::init` registers, for a DTB with a tree. -/
def treeRanges (board : Board) (info : KernelPhysInfo) (dtbPa : UInt64) (b : Blob) (root : Bytes)
    (items : Items) : List PhysRegion :=
  (treeCalls root items ++ (imageCalls board info dtbPa (some ⟨b.totalSize⟩) ++
    [mmioCall board])).filterMap Call.stored

/-- `parse` on a DTB with a tree. -/
theorem parse_treeCalls {mem : Memory} {dtbPa : ℕ} {b : Blob} {root : Bytes} {items : Items}
    (hpa : dtbPa ≠ 0) (hheader : readHeader mem dtbPa = .ok (some b)) (h : Flattens b root items)
    (hheight : items.height + 1 ≤ 32) (hcells : ∀ p ∈ treeProps root items, p.Fits) (m : MemoryMap) :
    parse mem dtbPa m = .ok (some ⟨b.totalSize⟩, m.addAll (treeCalls root items)) := by
  obtain ⟨visits, hvisits, -⟩ := parseVisits_ok h hheight hcells
  have hcalls : parseCalls b = .ok (treeCalls root items) := by
    rw [parseCalls_eq_visits, hvisits]
    rfl
  simp only [parse, if_neg hpa, hheader, Exec.ok_bind, hcalls, Exec.pure_eq]

/-- `/memory@0`, with a GiB. -/
def ramTree : Items :=
  .node (ascii "memory@0")
    (.prop (ascii "reg") (be32 0 ++ be32 0 ++ be32 0 ++ be32 0x40000000) .nil) .nil

/-- A blob of the tree. -/
def ramBlob : Blob where
  totalSize := 108
  structBlock := structBytes (ascii "reg" ++ [0]) [] ramTree
  stringsBlock := carveOutBlob.stringsBlock
  struct_lt := by decide
  strings_lt := carveOutBlob.strings_lt

/-- The ranges for the tree, on `qemu`. -/
def ramRanges : List PhysRegion := treeRanges .qemu Boot.sampleInfo 0x1000 ramBlob [] ramTree

end Ralix.Mm
