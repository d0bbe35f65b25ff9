import Mathlib.Data.List.Sort
import Ralix.Mm.Spans

/-!
# The form of a normalized map

What `normalize` returns depends on the set of the regions only, as the priorities are all different:
`normalize_eq_of_perm`. Its regions are in order as far as `align_usable` finds a page in each usable
one: the others become the region from 0 to 0, wherever they are in the list
(`sortedApart_normalize_iff`). What it leaves of a usable region is inside the region, unless the region
begins past the last page boundary and rounding wraps around (`alignsWithin_iff`).
-/

namespace Ralix.Mm

open Lib Extent

/-! ## The order of the regions -/

/-- Kinds of one priority are the same. -/
theorem kindPriority_inj {k k' : RegionKind} (h : kindPriority k = kindPriority k') : k = k' := by
  cases k <;> cases k' <;> first | rfl | exact absurd h (by decide)

/-- There is one kind of highest priority. -/
theorem Highest.unique {regions regions' : List PhysRegion} {P : PhysRegion → Prop}
    {k k' : RegionKind} (h : Highest regions P k) (h' : Highest regions' P k')
    (hmem : ∀ r, r ∈ regions ↔ r ∈ regions') : k = k' := by
  obtain ⟨r, hr, hP, hk⟩ := h.mem
  obtain ⟨s, hs, hP', hk'⟩ := h'.mem
  have hle : kindPriority k ≤ kindPriority k' := hk ▸ h'.le r ((hmem r).mp hr) hP
  have hge : kindPriority k' ≤ kindPriority k := hk' ▸ h.le s ((hmem s).mpr hs) hP'
  exact kindPriority_inj (Nat.le_antisymm hle hge)

/-- The kind of a span does not depend on the order of the regions. -/
theorem spanKind_congr {regions regions' : List PhysRegion}
    (hmem : ∀ r, r ∈ regions ↔ r ∈ regions') (s e : ℕ) :
    spanKind regions s e = spanKind regions' s e := by
  cases hk : spanKind regions s e with
  | none =>
    cases hk' : spanKind regions' s e with
    | none => rfl
    | some k' =>
      obtain ⟨r, hr, hcover, -⟩ := (highest_of_spanKind hk').mem
      exact absurd hcover (spanKind_eq_none hk r ((hmem r).mpr hr))
  | some k =>
    have hhigh := highest_of_spanKind hk
    cases hk' : spanKind regions' s e with
    | none =>
      obtain ⟨r, hr, hcover, -⟩ := hhigh.mem
      exact absurd hcover (spanKind_eq_none hk' r ((hmem r).mp hr))
    | some k' => rw [hhigh.unique (highest_of_spanKind hk') hmem]

/-- The spans between given boundaries depend on the kinds of the spans only. -/
theorem spans_congr {regions regions' : List PhysRegion}
    (h : ∀ s e, spanKind regions s e = spanKind regions' s e) (bs : List ℕ) :
    spans regions bs = spans regions' bs := by
  fun_induction spans regions bs with
  | case1 start rest ih => rw [spans, if_pos rfl, ih]
  | case2 start stop rest hne kind hkind ih =>
    rw [h] at hkind
    rw [spans, if_neg hne, hkind, ih]
  | case3 start stop rest hne hkind ih =>
    rw [h] at hkind
    rw [spans, if_neg hne, hkind, ih]
  | case4 bs hshort =>
    unfold spans
    split
    · exact (hshort _ _ _ rfl).elim
    · rfl

/-- `sort_u64` gives the values in any order the same order. -/
theorem sortU64_eq_of_perm {vs vs' : List ℕ} (h : vs.Perm vs') : sortU64 vs = sortU64 vs' := by
  have hperm : (sortU64 vs).Perm (sortU64 vs') := calc
    (sortU64 vs).Perm vs := sortLoop_perm _ _
    _ |>.Perm vs' := h
    _ |>.Perm (sortU64 vs') := (sortLoop_perm _ _).symm
  exact hperm.eq_of_pairwise (fun _ _ _ _ hle hge => Nat.le_antisymm hle hge) (sortU64_sorted vs)
    (sortU64_sorted vs')

/-- `normalize` does not depend on the order of the regions. -/
theorem normalizeRegions_eq_of_perm {regions regions' : List PhysRegion}
    (h : regions.Perm regions') : normalizeRegions regions = normalizeRegions regions' := by
  have hbounds : sortU64 (endpoints regions) = sortU64 (endpoints regions') :=
    sortU64_eq_of_perm (h.flatMap_right _)
  have hkinds := spans_congr (spanKind_congr fun r => h.mem_iff) (sortU64 (endpoints regions))
  rw [normalizeRegions, normalizeRegions, spanLoop_eq _ _ (Nat.zero_le _),
    spanLoop_eq _ _ (Nat.zero_le _), ← hbounds, hkinds]

/-- A normalized map is given by its regions. -/
theorem NormalizedMap.eq_of_regions {n n' : NormalizedMap} (h : n.regions = n'.regions) : n = n' := by
  cases n with
  | mk regions _ _ =>
    cases n' with
    | mk regions' _ _ =>
      cases h
      rfl

/-- Up to 128 calls with a size store all their regions. -/
theorem regions_addAll_new {calls : List MemoryMap.Call} (hlen : calls.length ≤ maxRegions)
    (hsize : ∀ c ∈ calls, c.size ≠ 0) :
    (MemoryMap.new.addAll calls).regions = calls.map MemoryMap.Call.region := by
  have hstored : (calls.filterMap fun c => if c.size = 0 then none else some c.region) =
      calls.map MemoryMap.Call.region := by
    rw [← List.filterMap_eq_map]
    exact List.filterMap_congr fun c hc => if_neg (hsize c hc)
  rw [MemoryMap.regions_addAll, hstored]
  show ([] ++ calls.map MemoryMap.Call.region).take maxRegions = _
  rw [List.nil_append, List.take_of_length_le (by rwa [List.length_map])]

/-- The order in which up to 128 regions are added makes no difference to the normalized map. -/
theorem normalize_eq_of_perm (calls calls' : List MemoryMap.Call) (hperm : calls.Perm calls')
    (hlen : calls.length ≤ maxRegions) (hsize : ∀ c ∈ calls, c.size ≠ 0) :
    (MemoryMap.new.addAll calls).normalize = (MemoryMap.new.addAll calls').normalize := by
  apply NormalizedMap.eq_of_regions
  have hregions := regions_addAll_new hlen hsize
  have hregions' := regions_addAll_new (hperm.length_eq ▸ hlen) fun c hc =>
    hsize c (hperm.mem_iff.mpr hc)
  show normalizeRegions _ = normalizeRegions _
  rw [hregions, hregions']
  exact normalizeRegions_eq_of_perm (hperm.map _)

/-- `normalize_eq_of_perm` at the kernel image before and after the RAM that it is in. -/
theorem normalize_eq_of_perm_sample :
    (MemoryMap.new.addAll sampleCalls).normalize =
      (MemoryMap.new.addAll sampleCalls.reverse).normalize :=
  normalize_eq_of_perm sampleCalls sampleCalls.reverse (List.reverse_perm _).symm (by decide)
    (by decide)

/-! ## The order of the result -/

/-- Each region has an address, and the next one starts where it ends or later. -/
structure SortedApart (regions : List PhysRegion) : Prop where
  nonempty : ∀ r ∈ regions, r.start < r.stop
  chain : regions.IsChain fun r s => r.stop ≤ s.start

/-- Some page is wholly in the region. -/
def HoldsPage (r : PhysRegion) : Prop :=
  ∃ page, r.start ≤ page * pageSize ∧ (page + 1) * pageSize ≤ r.stop

/-- A region holds a page if rounding leaves something of it. -/
theorem holdsPage_iff {r : PhysRegion} :
    HoldsPage r ↔ (r.start + 4095) / 4096 * 4096 < r.stop / 4096 * 4096 := by
  constructor
  · rintro ⟨page, hlo, hhi⟩
    unfold pageSize at hlo hhi
    omega
  · intro hlt
    refine ⟨(r.start + 4095) / 4096, ?_, ?_⟩
    · unfold pageSize
      omega
    · unfold pageSize
      omega

/-- `align_usable` leaves an address exactly in the usable regions that hold a page. -/
theorem alignRegion_nonempty_iff {r : PhysRegion} (hr : r.start < r.stop)
    (hstop : r.stop ≤ 2^64 - 4096) :
    (alignRegion r).start < (alignRegion r).stop ↔ (r.kind = .usableRam → HoldsPage r) := by
  by_cases hk : r.kind = .usableRam
  · rw [alignRegion_usable hr hstop hk, holdsPage_iff]
    split
    · rename_i hle
      exact iff_of_false (Nat.lt_irrefl 0) fun h => absurd (h hk) (Nat.not_lt.mpr hle)
    · rename_i hle
      exact iff_of_true (Nat.not_le.mp hle) fun _ => Nat.not_le.mp hle
  · rw [alignRegion_other hk]
    exact iff_of_true hr fun h => absurd h hk

/-- What is left of a region is inside it. -/
theorem alignRegion_within {r : PhysRegion} (hr : r.start < r.stop) (hstop : r.stop ≤ 2^64 - 4096)
    (hne : (alignRegion r).start < (alignRegion r).stop) :
    r.start ≤ (alignRegion r).start ∧ (alignRegion r).stop ≤ r.stop := by
  have hfirst := (alignRegion_spec hr hstop (a := (alignRegion r).start) ⟨le_rfl, hne⟩).2.1
  have hlast := (alignRegion_spec hr hstop (a := (alignRegion r).stop - 1)
    ⟨by omega, by omega⟩).2.1
  have hend := hlast.2
  exact ⟨hfirst.1, by omega⟩

/-- The regions of `normalize` are in order exactly if every maximal run of addresses that keeps usable
RAM holds a page. -/
theorem sortedApart_normalize_iff (m : MemoryMap) (hends : ∀ r ∈ m.regions, r.stop ≤ 2^64 - 4096) :
    SortedApart m.normalize.regions ↔
      ∀ r, Run m.regions r → r.kind = .usableRam → HoldsPage r := by
  have hpaint : Painted m.regions (merged m.regions) := merged_painted m.regions
  have hstop : ∀ {r}, r ∈ merged m.regions → r.stop ≤ 2^64 - 4096 := fun hr =>
    hpaint.stop_le hends hr
  constructor
  · intro h r hrun hk
    have hr := mem_merged_iff.mpr hrun
    have hne := h.nonempty _ (mem_normalize_iff.mpr ⟨r, hr, rfl⟩)
    exact (alignRegion_nonempty_iff hrun.lt (hstop hr)).mp hne hk
  · intro h
    have hne : ∀ r ∈ merged m.regions, (alignRegion r).start < (alignRegion r).stop := fun r hr =>
      (alignRegion_nonempty_iff (hpaint.nonempty r hr) (hstop hr)).mpr (h r (mem_merged_iff.mp hr))
    refine ⟨fun s hs => ?_, List.Pairwise.isChain ?_⟩
    · obtain ⟨r, hr, rfl⟩ := mem_normalize_iff.mp hs
      exact hne r hr
    · -- Every region is inside the span that it comes from, and the spans are in order.
      show (alignUsable (merged m.regions)).Pairwise _
      rw [alignUsable, List.pairwise_map]
      refine hpaint.ordered.imp_of_mem fun {r s} hr hs hrs => ?_
      calc (alignRegion r).stop ≤ r.stop :=
            (alignRegion_within (hpaint.nonempty r hr) (hstop hr) (hne r hr)).2
        _ ≤ s.start := hrs
        _ ≤ (alignRegion s).start :=
            (alignRegion_within (hpaint.nonempty s hs) (hstop hs) (hne s hs)).1

/-- `sortedApart_normalize_iff` at RAM with a kernel image. -/
theorem sortedApart_normalize_iff_sample :
    SortedApart (MemoryMap.new.addAll sampleCalls).normalize.regions ↔
      ∀ r, Run (MemoryMap.new.addAll sampleCalls).regions r → r.kind = .usableRam → HoldsPage r :=
  sortedApart_normalize_iff _ (by decide)

/-- RAM of which two reserved regions leave less than a page between them. -/
def sliverCalls : List MemoryMap.Call :=
  [⟨0, 0x10000, .usableRam⟩, ⟨0x1000, 0x1800, .reserved⟩, ⟨0x2c00, 0x1400, .reserved⟩]

/-- The regions of the map with a sliver are not in order: the third one runs from 0 to 0. -/
theorem sortedApart_sliver :
    (∀ r ∈ (MemoryMap.new.addAll sliverCalls).regions, r.stop ≤ 2^64 - 4096) ∧
      (MemoryMap.new.addAll sliverCalls).normalize.regions =
        [⟨0, 0x1000, .usableRam⟩, ⟨0x1000, 0x2800, .reserved⟩, ⟨0, 0, .reserved⟩,
          ⟨0x2c00, 0x4000, .reserved⟩, ⟨0x4000, 0x10000, .usableRam⟩] ∧
      ¬ SortedApart (MemoryMap.new.addAll sliverCalls).normalize.regions := by
  refine ⟨by decide, by decide +kernel, fun h => ?_⟩
  exact absurd (h.nonempty ⟨0, 0, .reserved⟩ (by decide +kernel)) (Nat.lt_irrefl 0)

/-! ## What rounding leaves of usable RAM -/

/-- A region is what is left of a usable one, and inside it. -/
def LeftOf (r left : PhysRegion) : Prop :=
  r.kind = .usableRam ∧ r.start ≤ left.start ∧ left.stop ≤ r.stop

/-- Each usable region of `normalize` is inside the usable region that `align_usable` made it of. -/
def AlignsWithin (m : MemoryMap) : Prop :=
  List.Forall₂ (fun r left => left.kind = .usableRam → LeftOf r left) (merged m.regions)
    m.normalize.regions

/-- What `align_usable` leaves of a region is inside it exactly if rounding its start does not wrap. -/
theorem alignRegion_leftOf_iff {r : PhysRegion} (hr : r.start < r.stop) (hstop : r.stop < 2^64) :
    ((alignRegion r).kind = .usableRam → LeftOf r (alignRegion r)) ↔
      (r.kind = .usableRam → r.start ≤ 2^64 - 4096) := by
  by_cases hk : r.kind = .usableRam
  · have hdown := alignDown_page hstop
    rcases Nat.lt_or_ge (2^64 - 4096) r.start with hlast | hfit
    · -- The start becomes zero, and the end stays in the last page.
      have hup : alignUp r.start pageSize = 0 :=
        alignUp_of_wrap (k := 12) (hr.trans hstop) (by decide) (by omega)
      have hleft : alignRegion r = ⟨0, r.stop / 4096 * 4096, .usableRam⟩ := by
        rw [alignRegion, if_neg (not_not.mpr hk), hup, hdown]
        exact if_neg (by omega)
      refine iff_of_false (fun h => ?_) fun h => absurd (h hk) (Nat.not_le.mpr hlast)
      have hstart := (h (by rw [hleft])).2.1
      rw [hleft] at hstart
      have hzero : r.start ≤ 0 := hstart
      omega
    · have hup := alignUp_page hfit
      refine iff_of_true (fun hleft => ?_) fun _ => hfit
      rw [alignRegion, if_neg (not_not.mpr hk), hup, hdown] at hleft ⊢
      dsimp only at hleft ⊢
      split at hleft
      · exact absurd hleft (by decide)
      · rename_i hne
        rw [if_neg hne]
        refine ⟨hk, ?_, Nat.div_mul_le_self _ _⟩
        show r.start ≤ (r.start + 4095) / 4096 * 4096
        omega
  · rw [alignRegion_other hk]
    exact iff_of_true (fun h => absurd h hk) fun h => absurd h hk

/-- What `align_usable` leaves is inside the regions exactly if no usable RAM begins past the last page
boundary: an address there that keeps usable RAM comes after one that keeps it too. -/
theorem alignsWithin_iff (m : MemoryMap) :
    AlignsWithin m ↔ ∀ a, 2^64 - 4096 < a → keptAt m.regions a = some .usableRam →
      keptAt m.regions (a - 1) = some .usableRam := by
  have hpaint : Painted m.regions (merged m.regions) := merged_painted m.regions
  have hstop : ∀ {r}, r ∈ merged m.regions → r.stop < 2^64 := fun hr =>
    Nat.lt_of_le_pred (by decide)
      (hpaint.stop_le (fun s hs => Nat.le_pred_of_lt (m.bounded s hs).2) hr)
  have hregions : AlignsWithin m ↔
      ∀ r ∈ merged m.regions, r.kind = .usableRam → r.start ≤ 2^64 - 4096 := by
    show List.Forall₂ _ (merged m.regions) ((merged m.regions).map alignRegion) ↔ _
    rw [List.forall₂_map_right_iff, List.forall₂_same]
    exact forall₂_congr fun r hr => alignRegion_leftOf_iff (hpaint.nonempty r hr) (hstop hr)
  rw [hregions]
  constructor
  · intro h a ha hkept
    obtain ⟨r, hr, hra⟩ := (contains_merged_iff m.regions a).mpr (by rw [hkept]; rfl)
    have hk := keptAt_of_mem_merged hr hra
    rw [hkept, Option.some.injEq] at hk
    -- The region of the address begins in an earlier page, so it has the address before as well.
    have hstart := h r hr hk.symm
    rw [hk]
    exact keptAt_of_mem_merged hr ⟨by omega, (Nat.sub_le a 1).trans_lt hra.2⟩
  · intro h r hr hk
    by_contra hlast
    have hrun := mem_merged_iff.mp hr
    have hkept := hrun.kept r.start ⟨le_rfl, hrun.lt⟩
    refine hrun.before (r.start - 1) (by omega) ?_
    rw [hk] at hkept ⊢
    exact h r.start (by omega) hkept

/-- A kilobyte of RAM in the last page, past its boundary. -/
def lastPageCalls : List MemoryMap.Call := [⟨0xFFFFFFFFFFFFF800, 0x400, .usableRam⟩]

/-- The kilobyte becomes all memory up to the last page. -/
theorem not_alignsWithin :
    (MemoryMap.new.addAll lastPageCalls).normalize.regions = [⟨0, 2^64 - 4096, .usableRam⟩] ∧
      ¬ AlignsWithin (MemoryMap.new.addAll lastPageCalls) := by
  have hmerged : merged (MemoryMap.new.addAll lastPageCalls).regions =
      [⟨0xFFFFFFFFFFFFF800, 0xFFFFFFFFFFFFFC00, .usableRam⟩] := by decide +kernel
  have hregions : (MemoryMap.new.addAll lastPageCalls).normalize.regions =
      [⟨0, 2^64 - 4096, .usableRam⟩] := by decide +kernel
  refine ⟨hregions, fun h => ?_⟩
  rw [AlignsWithin, hmerged, hregions, List.forall₂_cons] at h
  exact absurd (h.1 rfl).2.1 (by decide)

end Ralix.Mm
