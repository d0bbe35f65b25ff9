import Ralix.Mm.Init
import Ralix.Mm.Spans

/-!
# What the frame allocator keeps away from

A frame that the allocator returns lies in a usable region of the normalized map, so no stored region
of another kind touches it (`Boot.protects_of_stored`). What is stored is the first 128 of the
non-empty ranges (`Boot.map_regions`), and the kernel's own come last.
-/

namespace Ralix.Mm

open Lib Extent Platform MemoryMap Dtb FrameAllocator

/-- The region that a call stores while there is room. -/
def MemoryMap.Call.stored (c : Call) : Option PhysRegion := if c.size = 0 then none else some c.region

/-- A call with a size stores its region. -/
theorem MemoryMap.Call.stored_eq_some {c : Call} {r : PhysRegion} :
    c.stored = some r ↔ c.size ≠ 0 ∧ c.region = r := by
  unfold stored
  split <;> simp_all

/-- The region of a call ends no later than the call says. -/
theorem MemoryMap.Call.region_stop_le (c : Call) :
    c.region.stop ≤ c.start.toNat + c.size.toNat :=
  Nat.min_le_left _ _

/-- A call without a size has an empty region. -/
theorem MemoryMap.Call.size_ne_zero {c : Call} {a : ℕ} (h : c.region.Contains a) : c.size ≠ 0 := by
  intro hz
  have hlo := h.1
  have hhi := h.2.trans_le c.region_stop_le
  rw [hz, UInt64.toNat_zero, Nat.add_zero] at hhi
  exact absurd hhi (Nat.not_lt.mpr hlo)

namespace Boot

variable {b : Boot}

/-- The calls of `add_region`, in order. -/
def allCalls (b : Boot) : List Call :=
  b.calls ++ imageCalls b.board b.info b.dtbPa b.dtb ++ [mmioCall b.board]

/-- The map holds the first 128 non-empty ranges. -/
theorem map_regions (b : Boot) :
    b.map.regions = (b.allCalls.filterMap Call.stored).take maxRegions := by
  have happend : b.map = MemoryMap.new.addAll b.allCalls := by
    rw [map, allCalls, List.append_assoc, addAll_append MemoryMap.new]
  rw [happend, regions_addAll]
  rfl

/-- A region of the map comes from a call. -/
theorem exists_call {r : PhysRegion} (hr : r ∈ b.map.regions) :
    ∃ c ∈ b.allCalls, c.size ≠ 0 ∧ c.region = r := by
  rw [map_regions] at hr
  obtain ⟨c, hc, hcr⟩ := List.mem_filterMap.mp (List.mem_of_mem_take hr)
  exact ⟨c, hc, Call.stored_eq_some.mp hcr⟩

/-- No region of the map reaches the last page of the address space. -/
theorem map_stop_le (b : Boot) : ∀ r ∈ b.map.regions, r.stop ≤ 2^64 - 4096 := by
  intro r hr
  obtain ⟨c, hc, -, rfl⟩ := exists_call hr
  refine c.region_stop_le.trans ?_
  rcases List.mem_append.mp hc with hc | hc
  · exact b.ends c hc
  · rw [List.mem_singleton.mp hc]
    cases b.board <;> decide

/-- The usable regions of the normalized map consist of whole pages. -/
theorem normalize_pageAligned (b : Boot) : PageAligned b.map.normalize.regions :=
  fun _ hr hk => normalize_aligned b.map_stop_le hr hk

end Boot

/-- The range ends with a usable region that it starts in, or, if it starts in none, with the first
usable region. -/
theorem bootRangeEnd_cases (regions : List PhysRegion) (bootStart : ℕ) :
    (∃ r ∈ regions, r.kind = .usableRam ∧ r.Contains bootStart ∧
      bootRangeEnd regions bootStart = r.stop) ∨
    ((∀ r ∈ regions, r.kind = .usableRam → ¬ r.Contains bootStart) ∧
      bootRangeEnd regions bootStart =
        stopOr (regions.filter fun r => r.kind = .usableRam).head?) := by
  unfold bootRangeEnd
  dsimp only
  generalize hfound : (regions.filter fun r => r.kind = .usableRam).find? (fun r =>
    r.start ≤ bootStart ∧ bootStart < r.stop) = found
  match found with
  | none =>
    refine .inr ⟨fun r hr hk hc => ?_, if_pos rfl⟩
    have hmem : r ∈ regions.filter fun r => r.kind = .usableRam :=
      List.mem_filter.mpr ⟨hr, decide_eq_true hk⟩
    exact absurd (decide_eq_true hc) (List.find?_eq_none.mp hfound r hmem)
  | some r =>
    obtain ⟨hr, hk⟩ := List.mem_filter.mp (List.mem_of_find?_eq_some hfound)
    have hc : r.start ≤ bootStart ∧ bootStart < r.stop := by simpa using List.find?_some hfound
    refine .inl ⟨r, hr, of_decide_eq_true hk, hc, if_neg ?_⟩
    exact Nat.ne_of_gt ((Nat.zero_le _).trans_lt hc.2)

/-- A boot range that is not empty ends at the end of a usable region. -/
theorem bootRangeEnd_spec {regions : List PhysRegion} {bootStart : ℕ}
    (h : bootRangeEnd regions bootStart ≠ 0) :
    ∃ r ∈ regions, r.kind = .usableRam ∧ bootRangeEnd regions bootStart = r.stop := by
  rcases bootRangeEnd_cases regions bootStart with ⟨r, hr, hk, -, hend⟩ | ⟨-, hend⟩
  · exact ⟨r, hr, hk, hend⟩
  · rw [hend] at h ⊢
    match hhead : (regions.filter fun r => r.kind = .usableRam).head? with
    | none =>
      rw [hhead] at h
      exact absurd rfl h
    | some r =>
      obtain ⟨hr, hk⟩ := List.mem_filter.mp (List.mem_of_head? hhead)
      exact ⟨r, hr, of_decide_eq_true hk, by rw [hhead]; rfl⟩

/-- The boot range ends with the usable region that it starts in. -/
theorem bootRangeEnd_of_contains {regions : List PhysRegion} (hapart : Apart regions)
    {r : PhysRegion} (hr : r ∈ regions) (hk : r.kind = .usableRam) {bootStart : ℕ}
    (hc : r.Contains bootStart) : bootRangeEnd regions bootStart = r.stop := by
  rcases bootRangeEnd_cases regions bootStart with ⟨s, hs, -, hsc, hend⟩ | ⟨hnone, -⟩
  · rw [hend, hapart.eq_of_contains hs hr hsc hc]
  · exact absurd hc (hnone r hr hk)

namespace Boot

variable {b : Boot}

/-- `mm::init` gets through, and leaves an allocator whose free frames are usable. -/
theorem init_ok (b : Boot) : ∃ alloc, b.init = .ok alloc ∧ ∀ a, alloc = some a →
    a.Valid ∧ ∀ i ∈ a.free, UsableFrame b.map.normalize.regions i := by
  by_cases hzero : b.bootEnd = 0
  · refine ⟨none, ?_, nofun⟩
    rw [init, if_pos hzero]
  obtain ⟨r, hr, hk, hstop⟩ := bootRangeEnd_spec hzero
  obtain ⟨alloc, boot, hinit, hspec, -⟩ :=
    frameInit_spec b.normalize_pageAligned
      ⟨r, hr, hk, (BootAlloc.init_stop b.bootStart b.bootEnd).trans_le hstop.le⟩
  refine ⟨alloc, ?_, fun a ha => ⟨hspec.valid a ha, fun i hi => ?_⟩⟩
  · rw [init, if_neg hzero, hinit]
    rfl
  · exact ((hspec.free a ha i).mp hi).1

/-- An address in a usable frame is in no stored region of another kind. -/
theorem not_contains_of_usable {i a : ℕ} (hi : UsableFrame b.map.normalize.regions i)
    (ha : a / pageSize = i) {r : PhysRegion} (hr : r ∈ b.map.regions) (hk : r.kind ≠ .usableRam) :
    ¬ r.Contains a := by
  obtain ⟨s, hs, hsk, hlo, hhi⟩ := hi
  have hc : s.Contains a := by
    unfold pageSize at *
    exact ⟨by omega, by omega⟩
  obtain ⟨hkind, -⟩ := kindAt_of_mem_normalize b.map_stop_le hs hc
  rw [hsk] at hkind
  exact fun hra => hk ((usable_of_kindAt hkind).2 r hr hra)

/-- The allocator keeps away from protected ranges that are all in the map. -/
theorem protects_of_stored
    (h : ∀ r ∈ b.protectedRegions, ∀ a, r.Contains a → r ∈ b.map.regions) : b.Protects := by
  obtain ⟨alloc, hinit, hfree⟩ := b.init_ok
  refine ⟨alloc, hinit, fun f hf op hop p f' hrun a hlo hhi r hr hra => ?_⟩
  obtain ⟨res, f'', hrun', -, hres⟩ := (hf.inv fun a ha => (hfree a ha).1).run hop
  rw [hrun] at hrun'
  cases hrun'
  obtain ⟨idx, a₀, hp, ha₀, htaken⟩ := hres p rfl
  -- The address lies in one of the frames that were taken, which was free.
  have hi := htaken (a / pageSize) (by unfold pageSize at *; omega) (by unfold pageSize at *; omega)
  have husable := (hfree a₀ ha₀).2 _ hi.1
  refine not_contains_of_usable husable rfl (h r hr a hra) ?_ hra
  obtain ⟨c, hc, rfl⟩ := List.mem_map.mp hr
  exact of_decide_eq_true (List.mem_filter.mp hc).2

/-- The kernel registers four ranges at most before the MMIO window. -/
theorem length_imageCalls_le (board : Board) (info : KernelPhysInfo) (dtbPa : UInt64)
    (dtb : Option DtbInfo) : (imageCalls board info dtbPa dtb).length ≤ 4 := by
  unfold imageCalls
  dsimp only
  split <;> cases dtb <;> cases board <;> simp

/-- With no more than 124 ranges from the DTB, the allocator keeps away from all protected ones. -/
theorem protects_of_rangeCount (h : b.rangeCount ≤ 124) : b.Protects := by
  refine protects_of_stored fun r hr a hra => ?_
  obtain ⟨c, hc, rfl⟩ := List.mem_map.mp hr
  have hcalls := (List.mem_filter.mp hc).1
  rw [map_regions, allCalls, List.filterMap_append, List.take_append]
  refine List.mem_append_left _ ?_
  rw [List.take_of_length_le]
  · exact List.mem_filterMap.mpr
      ⟨c, hcalls, Call.stored_eq_some.mpr ⟨Call.size_ne_zero hra, rfl⟩⟩
  · have hcount : (b.calls.filterMap Call.stored).length = b.rangeCount := by
      rw [rangeCount, ← List.countP_eq_length_filter, List.length_filterMap_eq_countP]
      congr 1
      funext c
      unfold Call.stored
      split <;> simp_all
    have himage := (List.length_filterMap_le Call.stored
      (imageCalls b.board b.info b.dtbPa b.dtb)).trans (length_imageCalls_le _ _ _ _)
    rw [List.filterMap_append, List.length_append, hcount]
    unfold maxRegions
    omega

/-! ## Too many ranges -/

/-- RAM of 1 GiB, the first page of it reserved `n` times. -/
def crowdedCalls (n : ℕ) : List Call :=
  ⟨0, 0x40000000, .usableRam⟩ :: List.replicate n ⟨0, 0x1000, .reserved⟩

/-- An image as `linker.ld` lays it out, with 2 MiB of kernel. -/
def sampleInfo : KernelPhysInfo := ⟨0x200000, 0x400000, 0x3F0000, 0x400000, 0x200000⟩

/-- The ranges of the image and the stack. -/
def sampleImage : List Call :=
  [⟨0x80000, 0x180000, .kernelImage⟩, ⟨0x200000, 0x200000, .kernelImage⟩,
    ⟨0x3F0000, 0x10000, .bootStack⟩]

/-- The range of a DTB of one page is registered after those of the image and the stack. -/
theorem imageCalls_sample : imageCalls .qemu sampleInfo 0x1000 (some ⟨0x1000⟩) =
    sampleImage ++ [⟨0x1000, 0x1000, .bootInfo⟩] := by
  decide

/-- A board that boots with a DTB of one page at `0x1000`, and RAM with `n` reserved ranges. -/
def crowded (n : ℕ) : Boot where
  board := .qemu
  info := sampleInfo
  dtbPa := 0x1000
  dtb := some ⟨0x1000⟩
  calls := crowdedCalls n
  kinds := by
    intro c hc
    rcases List.mem_cons.mp hc with rfl | hc
    · exact .inl rfl
    · rw [List.eq_of_mem_replicate hc]
      exact .inr rfl
  missing := nofun
  ends := by
    have himage : ∀ c ∈ sampleImage ++ [⟨0x1000, 0x1000, .bootInfo⟩],
        c.start.toNat + c.size.toNat ≤ 2^64 - 4096 := by decide
    intro c hc
    rw [imageCalls_sample] at hc
    rcases List.mem_append.mp hc with hc | hc
    · rcases List.mem_cons.mp hc with rfl | hc
      · decide
      · rw [List.eq_of_mem_replicate hc]
        decide
    · exact himage c hc

/-- The map of `crowded`. -/
theorem crowded_regions (n : ℕ) : (crowded n).map.regions =
    (⟨0, 0x40000000, .usableRam⟩ :: (List.replicate n ⟨0, 0x1000, .reserved⟩ ++
      (sampleImage.map Call.region ++ [⟨0x1000, 0x2000, .bootInfo⟩,
        ⟨0x3F000000, 0x40000000, .mmio⟩]))).take maxRegions := by
  have hcalls : (crowded n).allCalls = ⟨0, 0x40000000, .usableRam⟩ ::
      (List.replicate n ⟨0, 0x1000, .reserved⟩ ++
        (sampleImage ++ [⟨0x1000, 0x1000, .bootInfo⟩, mmioCall .qemu])) := by
    show crowdedCalls n ++ imageCalls .qemu sampleInfo 0x1000 (some ⟨0x1000⟩) ++ [mmioCall .qemu] = _
    rw [imageCalls_sample, crowdedCalls]
    simp
  rw [map_regions, hcalls, List.filterMap_cons, List.filterMap_append, List.filterMap_replicate]
  rfl

/-- From 124 reserved ranges on, neither the DTB nor the MMIO window is in the map. -/
theorem mem_crowded {n : ℕ} (hn : 124 ≤ n) {r : PhysRegion} (hr : r ∈ (crowded n).map.regions) :
    r ∈ [⟨0, 0x40000000, .usableRam⟩, ⟨0, 0x1000, .reserved⟩] ++ sampleImage.map Call.region := by
  have hlen : maxRegions ≤ ((⟨0, 0x40000000, .usableRam⟩ :: (List.replicate n
      ⟨0, 0x1000, .reserved⟩ ++ sampleImage.map Call.region) : List PhysRegion)).length := by
    rw [List.length_cons, List.length_append, List.length_replicate]
    show 128 ≤ n + 3 + 1
    omega
  rw [crowded_regions, ← List.append_assoc, ← List.cons_append,
    List.take_append_of_le_length hlen] at hr
  rcases List.mem_cons.mp (List.mem_of_mem_take hr) with rfl | hr
  · simp
  · rcases List.mem_append.mp hr with hr | hr
    · rw [List.eq_of_mem_replicate hr]
      simp
    · exact List.mem_append_right _ hr

/-- The RAM and the first reserved range of `crowded` are in the map. -/
theorem crowded_mem {n : ℕ} (hn : 1 ≤ n) :
    ⟨0, 0x40000000, .usableRam⟩ ∈ (crowded n).map.regions ∧
      ⟨0, 0x1000, .reserved⟩ ∈ (crowded n).map.regions := by
  obtain ⟨m, rfl⟩ := Nat.exists_eq_add_of_le' hn
  have hmax : maxRegions = 126 + 1 + 1 := rfl
  rw [crowded_regions, List.replicate_succ, hmax, List.take_succ_cons, List.cons_append,
    List.take_succ_cons]
  simp

/-- In the map of `crowded`, from the end of the first page up to the image, and from the end of the
image on, there is nothing but RAM. -/
theorem kindAt_crowded {n : ℕ} (hn : 124 ≤ n) {a : ℕ}
    (ha : (0x1000 ≤ a ∧ a < 0x80000) ∨ (0x400000 ≤ a ∧ a < 0x40000000)) :
    kindAt (crowded n).map.regions a = some .usableRam := by
  have hram := (crowded_mem (n := n) (by omega)).1
  have hcon : (⟨0, 0x40000000, .usableRam⟩ : PhysRegion).Contains a := ⟨Nat.zero_le a, by
    show a < 0x40000000
    omega⟩
  match hk : kindAt (crowded n).map.regions a with
  | none => exact absurd ⟨hcon.1, hcon.2⟩ (spanKind_eq_none hk _ hram)
  | some k =>
    -- No other range of the map reaches the address.
    obtain ⟨⟨r, hr, hra, hrk⟩, -⟩ := highest_of_kindAt hk
    have hr := mem_crowded hn hr
    simp only [sampleImage, List.map_cons, List.map_nil, List.cons_append, List.nil_append,
      List.mem_cons, List.not_mem_nil, or_false] at hr
    have hlo := hra.1
    have hhi := hra.2
    rcases hr with rfl | rfl | rfl | rfl | rfl
    · rw [← hrk]
    · exact absurd hhi (by show ¬ a < 0x1000; omega)
    · exact absurd hhi (fun h => by
        have h : a < 0x200000 := h
        have h' : 0x80000 ≤ a := hlo
        omega)
    · exact absurd hhi (fun h => by
        have h : a < 0x400000 := h
        have h' : 0x200000 ≤ a := hlo
        omega)
    · exact absurd hhi (fun h => by
        have h : a < 0x400000 := h
        have h' : 0x3F0000 ≤ a := hlo
        omega)

/-- The map of `crowded` has few endpoints, so nothing is lost when it is normalized. -/
theorem crowded_room {n : ℕ} (hn : 124 ≤ n) :
    (endpoints (crowded n).map.regions).dedup.length ≤ maxRegions + 1 := by
  have hsub : (endpoints (crowded n).map.regions).dedup ⊆
      endpoints ([⟨0, 0x40000000, .usableRam⟩, ⟨0, 0x1000, .reserved⟩] ++
        sampleImage.map Call.region) := by
    intro x hx
    have hx := List.mem_dedup.mp hx
    simp only [endpoints, List.mem_flatMap] at hx ⊢
    obtain ⟨r, hr, hx⟩ := hx
    exact ⟨r, mem_crowded hn hr, hx⟩
  refine ((List.nodup_dedup _).subperm hsub).length_le.trans ?_
  decide

/-- The RAM past the image of `crowded` is in one usable region, which ends with the RAM. -/
theorem crowded_region {n : ℕ} (hn : 124 ≤ n) : ∃ r ∈ (crowded n).map.normalize.regions,
    r.kind = .usableRam ∧ r.start ≤ 0x400000 ∧ r.stop = 0x40000000 := by
  obtain ⟨r, hr, hk, hstart, hstop⟩ := normalize_complete (crowded n).map_stop_le (crowded_room hn)
    (x := 0x400000) (y := 0x40000000) (by decide) (by decide) (by decide)
    fun a hlo hhi => kindAt_crowded hn (.inr ⟨hlo, hhi⟩)
  refine ⟨r, hr, hk, hstart, Nat.le_antisymm ?_ hstop⟩
  refine normalize_stop_le (by decide) (fun s hs => ?_) r hr
  have hall : ∀ s ∈ [⟨0, 0x40000000, .usableRam⟩, ⟨0, 0x1000, .reserved⟩] ++
      sampleImage.map Call.region, s.stop ≤ 0x40000000 := by decide
  exact hall s (mem_crowded hn hs)

/-- The allocator of `crowded` comes up with frame `1` free and frame `0` in use. -/
theorem crowded_init {n : ℕ} (hn : 124 ≤ n) :
    ∃ a, (crowded n).init = .ok (some a) ∧ a.Valid ∧ 1 ∈ a.free ∧ 0 ∉ a.free := by
  obtain ⟨r, hr, hk, hstart, hstop⟩ := crowded_region hn
  have hstart' : (crowded n).bootStart = 0x400000 := by
    show alignUp (0x400000 : UInt64).toNat pageSize = 0x400000
    decide
  have hend : (crowded n).bootEnd = 0x40000000 := by
    rw [bootEnd, hstart', bootRangeEnd_of_contains (normalize_apart (crowded n).map_stop_le) hr hk
      ⟨hstart, by rw [hstop]; decide⟩, hstop]
  have hboot : BootAlloc.init (crowded n).bootStart (crowded n).bootEnd =
      ⟨0x400000, 0x400000, 0x40000000⟩ := by
    rw [hstart', hend]
    decide
  have hboot' : (⟨0x400000, 0x400000, 0x40000000⟩ : BootAlloc).stop ≤ r.stop := hstop.ge
  obtain ⟨alloc, boot, hinit, hspec, hbstart, -⟩ :=
    frameInit_spec (crowded n).normalize_pageAligned ⟨r, hr, hk, hboot'⟩
  -- Usable RAM ends at 1 GiB, so the bitmap takes 32 KiB.
  obtain ⟨hmem, hle⟩ := maxUsableEnd_spec (crowded n).map.normalize.regions
  have hmax := hle r hr hk
  rw [hstop] at hmax
  have hmax' : maxUsableEnd (crowded n).map.normalize.regions ≠ 0 := by omega
  obtain ⟨s, hs, -, hsmax⟩ := hmem.resolve_left hmax'
  have hsle : s.stop ≤ 0x40000000 := normalize_stop_le (by decide) (fun t ht => by
    have hall : ∀ s ∈ [⟨0, 0x40000000, .usableRam⟩, ⟨0, 0x1000, .reserved⟩] ++
        sampleImage.map Call.region, s.stop ≤ 0x40000000 := by decide
    exact hall t (mem_crowded hn ht)) s hs
  have hcount := (initFrameCount_eq (crowded n).normalize_pageAligned hmax').2
  have h8 : alignUp 0x400000 8 = 0x400000 := by decide
  have hsome : alloc.isSome := by
    refine frameInit_isSome hmax' ?_ ?_ hinit
    · show alignUp 0x400000 8 ≠ 0
      rw [h8]
      decide
    · show alignUp 0x400000 8 + _ ≤ 0x40000000
      rw [h8]
      unfold pageSize at hcount
      omega
  obtain ⟨a, rfl⟩ := Option.isSome_iff_exists.mp hsome
  refine ⟨a, ?_, hspec.valid a rfl, ?_, fun hzero => ?_⟩
  · rw [init, if_neg (by rw [hend]; decide), hboot, hinit]
    rfl
  · rw [hspec.free a rfl]
    refine ⟨?_, fun h => ?_⟩
    · obtain ⟨r, hr, hk, hlo, hhi⟩ := normalize_complete (crowded n).map_stop_le (crowded_room hn)
        (x := 0x1000) (y := 0x2000) (by decide) (by decide) (by decide)
        fun a hlo hhi => kindAt_crowded hn (.inl ⟨hlo, by omega⟩)
      exact ⟨r, hr, hk, hlo, hhi⟩
    · have hlo := h.1
      rw [hbstart] at hlo
      exact absurd hlo (by decide)
  · have husable := ((hspec.free a rfl 0).mp hzero).1
    exact not_contains_of_usable husable rfl (crowded_mem (n := n) (by omega)).2 (by decide)
      ⟨Nat.le_refl 0, by decide⟩

/-- From 124 reserved ranges on, the first frame that `alloc_frame` returns is that of the DTB. -/
theorem not_protects_of_crowded {n : ℕ} (hn : 124 ≤ n) : ¬ (crowded n).Protects := by
  rintro ⟨alloc, hinit, hprot⟩
  obtain ⟨a, hinit', hvalid, hone, hzero⟩ := crowded_init hn
  rw [hinit] at hinit'
  cases hinit'
  obtain ⟨res, a', hrun, htakes, hnone, hfirst⟩ := allocFrame_ok hvalid
  match res, htakes with
  | none, _ =>
    rw [hnone rfl] at hone
    exact absurd hone (Finset.notMem_empty 1)
  | some p, htakes =>
    obtain ⟨idx, hp, hsub, -⟩ := htakes
    have hidx : idx ∈ a.free := hsub (Finset.mem_Ico.mpr ⟨le_rfl, by omega⟩)
    have hne : idx ≠ 0 := fun h => hzero (h ▸ hidx)
    -- frame 1 is free, and the allocator takes no frame above it
    have hle : p ≤ 1 * pageSize := by
      by_contra hlt
      exact hfirst p rfl 1 (by omega) hone
    have hp' : p = 0x1000 := by
      unfold pageSize at *
      omega
    subst hp'
    have hop : FrameOp.run .alloc ⟨some a, ∅⟩ =
        .ok (some 0x1000, ⟨some a', ∅ ∪ FrameOp.taken 1 (some 0x1000)⟩) := by
      simp only [FrameOp.run, hrun, Exec.ok_bind, Exec.pure_eq]
    refine hprot ⟨some a, ∅⟩ .init .alloc trivial _ _ hop 0x1000 le_rfl (by decide)
      ⟨0x1000, 0x2000, .bootInfo⟩ ?_ ⟨le_rfl, by decide⟩
    · refine List.mem_map.mpr
        ⟨⟨0x1000, 0x1000, .bootInfo⟩, List.mem_filter.mpr ⟨?_, by decide⟩, rfl⟩
      refine List.mem_append_right _ ?_
      show _ ∈ imageCalls .qemu sampleInfo 0x1000 (some ⟨0x1000⟩)
      decide

/-- The number of non-empty ranges of `crowded`. -/
theorem rangeCount_crowded (n : ℕ) : (crowded n).rangeCount = n + 1 := by
  unfold rangeCount
  show ((crowdedCalls n).filter _).length = n + 1
  rw [crowdedCalls, List.filter_cons_of_pos (by decide), List.filter_replicate, if_pos (by decide),
    List.length_cons, List.length_replicate]

/-- The allocator keeps away from the protected ranges on every board and with every image and DTB
of `n` ranges, if and only if `n` is at most 124. -/
theorem protects_iff (n : ℕ) : (∀ b : Boot, b.rangeCount = n → b.Protects) ↔ n ≤ 124 := by
  constructor
  · intro h
    by_contra hn
    obtain ⟨m, rfl⟩ := Nat.exists_eq_add_of_le' (show 1 ≤ n by omega)
    exact not_protects_of_crowded (by omega) (h (crowded m) (rangeCount_crowded m))
  · rintro h b rfl
    exact protects_of_rangeCount h

/-- With 125 ranges, a frame of the DTB is returned. -/
theorem not_protects_crowded : ¬ (crowded 124).Protects :=
  not_protects_of_crowded (by decide)

end Boot

end Ralix.Mm
