import Mathlib.Data.Finset.Max
import Ralix.Mm.RegionSpec

/-!
# What `normalize` keeps

The spans between the endpoints of 128 regions may be 255, and `push` has room for 128. It keeps the
first, so whether an address is kept depends on how many spans begin at or below it. `spanStarts` counts
them: they begin at the endpoints that are in some region. `keptAt` is what is left of `kindAt`, and
`mem_merged_iff` says that the merged spans of a map are its maximal runs of one kind.

`losesNothing_iff` says when nothing is lost that `normalize` should keep.
-/

namespace Ralix.Mm

open Lib Extent

/-! ## The spans that there is room for -/

/-- The spans that begin at or below an address, which is where an endpoint is in a region. -/
def spanStarts (regions : List PhysRegion) (a : ℕ) : ℕ :=
  (endpoints regions).dedup.countP fun b => b ≤ a ∧ ∃ r ∈ regions, r.Contains b

/-- The kind of an address, if `normalize` has room for its span. -/
def keptAt (regions : List PhysRegion) (a : ℕ) : Option RegionKind :=
  if spanStarts regions a ≤ maxRegions then kindAt regions a else none

/-- An address has a kind if it is in a region. -/
theorem kindAt_isSome_iff {regions : List PhysRegion} {a : ℕ} :
    (kindAt regions a).isSome ↔ ∃ r ∈ regions, r.Contains a := by
  constructor
  · intro h
    obtain ⟨k, hk⟩ := Option.isSome_iff_exists.mp h
    obtain ⟨r, hr, ha, -⟩ := (highest_of_kindAt hk).mem
    exact ⟨r, hr, ha⟩
  · rintro ⟨r, hr, ha⟩
    rw [Option.isSome_iff_ne_none]
    exact fun hnone => spanKind_eq_none hnone r hr ha

/-- What is kept has the kind of its address. -/
theorem keptAt_eq_some {regions : List PhysRegion} {a : ℕ} {k : RegionKind} :
    keptAt regions a = some k ↔ spanStarts regions a ≤ maxRegions ∧ kindAt regions a = some k := by
  rw [keptAt, Option.ite_none_right_eq_some]

/-- There are as many spans that begin at or below an address as the definition counts. -/
theorem spanStarts_eq (regions : List PhysRegion) (a : ℕ) : spanStarts regions a =
    (spans regions (sortU64 (endpoints regions))).countP fun r => decide (r.start ≤ a) := by
  have hpaint := allSpans_painted regions
  have hmem : ∀ b, b ∈ (spans regions (sortU64 (endpoints regions))).map (·.start) ↔
      b ∈ (endpoints regions).dedup.filter fun b => decide (∃ r ∈ regions, r.Contains b) := by
    intro b
    rw [List.mem_filter, List.mem_dedup, decide_eq_true_iff, List.mem_map]
    constructor
    · rintro ⟨r, hr, rfl⟩
      obtain ⟨⟨hstart, -⟩, hlt, -⟩ := mem_spans (sortU64_sorted _) (ahead_sorted regions) hr
      have hk := hpaint.paints r hr r.start ⟨Nat.le_refl _, hlt⟩
      exact ⟨mem_sortU64.mp hstart, kindAt_isSome_iff.mp (by rw [hk]; rfl)⟩
    · rintro ⟨hb, hcovered⟩
      obtain ⟨s, hs, hsb⟩ := hcovered
      obtain ⟨r, hr, hrb⟩ := spans_complete (sortU64_sorted _) (ahead_sorted regions)
        ⟨b, mem_sortU64.mpr hb, Nat.le_refl b⟩ ⟨s.stop, mem_sortU64.mpr (mem_endpoints hs).2, hsb.2⟩
        (kindAt_isSome_iff.mpr ⟨s, hs, hsb⟩)
      -- An endpoint in a span is where the span begins.
      obtain ⟨-, -, hgap, -⟩ := mem_spans (sortU64_sorted _) (ahead_sorted regions) hr
      rcases hgap b hb with hle | hge
      · exact ⟨r, hr, Nat.le_antisymm hrb.1 hle⟩
      · exact absurd hrb.2 (Nat.not_lt.mpr hge)
  have hnodup : ((spans regions (sortU64 (endpoints regions))).map (·.start)).Nodup := by
    rw [List.Nodup, List.pairwise_map]
    refine hpaint.ordered.imp_of_mem fun {r s} hr _ hrs heq => ?_
    have hlt := hpaint.nonempty r hr
    omega
  have hperm := (List.perm_ext_iff_of_nodup hnodup ((List.nodup_dedup _).filter _)).mpr hmem
  have hcount := hperm.countP_eq fun b => decide (b ≤ a)
  rw [List.countP_map, List.countP_filter] at hcount
  rw [spanStarts]
  simp only [Bool.decide_and]
  exact hcount.symm

/-- The addresses of the spans that there is room for are those that are kept. -/
theorem contains_spanLoop_iff (regions : List PhysRegion) (a : ℕ) :
    (∃ r ∈ spanLoop regions (sortU64 (endpoints regions)) [], r.Contains a) ↔
      (keptAt regions a).isSome := by
  have hpaint := allSpans_painted regions
  rw [spanLoop_eq regions _ (Nat.zero_le _), List.nil_append,
    hpaint.ordered.mem_take_iff hpaint.nonempty, ← spanStarts_eq, keptAt]
  -- Without the limit, the spans cover what the regions cover.
  have hcover : (∃ r ∈ spans regions (sortU64 (endpoints regions)), r.Contains a) ↔
      (kindAt regions a).isSome := by
    constructor
    · rintro ⟨r, hr, ha⟩
      rw [hpaint.paints r hr a ha]
      rfl
    · intro hk
      obtain ⟨s, hs, hsa⟩ := kindAt_isSome_iff.mp hk
      obtain ⟨hstart, hstop⟩ := mem_endpoints hs
      exact spans_complete (sortU64_sorted _) (ahead_sorted regions)
        ⟨s.start, mem_sortU64.mpr hstart, hsa.1⟩ ⟨s.stop, mem_sortU64.mpr hstop, hsa.2⟩ hk
  rw [hcover]
  by_cases hroom : spanStarts regions a ≤ maxRegions
  · rw [if_pos hroom]
    exact and_iff_left hroom
  · rw [if_neg hroom]
    exact iff_of_false (fun h => hroom h.2) Bool.false_ne_true

/-- With room for all spans, all of them are kept. -/
theorem spanStarts_le_of_room {regions : List PhysRegion}
    (hroom : (endpoints regions).dedup.length ≤ maxRegions + 1) (a : ℕ) :
    spanStarts regions a ≤ maxRegions := by
  rw [spanStarts, List.countP_eq_length_filter]
  by_cases hnil : endpoints regions = []
  · rw [hnil]
    exact Nat.zero_le _
  -- No region goes on past the last endpoint.
  have hne : (endpoints regions).toFinset.Nonempty := List.toFinset_nonempty_iff _ |>.mpr hnil
  obtain ⟨e, he, hlast⟩ := (endpoints regions).toFinset.exists_max_image id hne
  rw [List.mem_toFinset] at he
  have hsub : ((endpoints regions).dedup.filter fun b => b ≤ a ∧ ∃ r ∈ regions, r.Contains b) ⊆
      (endpoints regions).dedup.erase e := by
    intro b hb
    obtain ⟨hmem, hb⟩ := List.mem_filter.mp hb
    obtain ⟨-, r, hr, hrb⟩ := of_decide_eq_true hb
    have hle := hlast r.stop (List.mem_toFinset.mpr (mem_endpoints hr).2)
    have hlt := hrb.2
    simp only [id] at hle
    exact (List.mem_erase_of_ne (by omega)).mpr hmem
  have hlen := (((List.nodup_dedup _).filter _).subperm hsub).length_le
  rw [List.length_erase_of_mem (List.mem_dedup.mpr he)] at hlen
  omega

/-! ## Merged spans -/

/-- Merging keeps the addresses. -/
theorem mergeLoop_contains {regions : List PhysRegion} {current : PhysRegion}
    {rest : List PhysRegion} (h : Painted regions (current :: rest)) {a : ℕ} :
    (∃ r ∈ mergeLoop current rest, r.Contains a) ↔ ∃ r ∈ current :: rest, r.Contains a := by
  fun_induction mergeLoop current rest with
  | case1 current => rfl
  | case2 current region rest hadj ih =>
    rw [ih (h.merge hadj)]
    have hcur := h.nonempty current List.mem_cons_self
    have hreg := h.nonempty region (by simp)
    simp only [List.exists_mem_cons_iff, ← or_assoc]
    refine or_congr_left ?_
    show current.start ≤ a ∧ a < region.stop ↔ current.Contains a ∨ region.Contains a
    unfold Contains
    omega
  | case3 current region rest hadj ih =>
    rw [List.exists_mem_cons_iff, ih h.tail]
    exact (List.exists_mem_cons_iff (·.Contains a) current (region :: rest)).symm

/-- The first merged region starts where the first region does, with its kind. -/
theorem mergeLoop_head (current : PhysRegion) (rest : List PhysRegion) :
    ∃ r l, mergeLoop current rest = r :: l ∧ r.start = current.start ∧ r.kind = current.kind := by
  fun_induction mergeLoop current rest with
  | case1 current => exact ⟨current, [], rfl, rfl, rfl⟩
  | case2 current region rest hadj ih => exact ih
  | case3 current region rest hadj ih => exact ⟨current, _, rfl, rfl, rfl⟩

/-- Merged regions that touch have different kinds. -/
theorem mergeLoop_separated {regions : List PhysRegion} {current : PhysRegion}
    {rest : List PhysRegion} (h : Painted regions (current :: rest)) :
    (mergeLoop current rest).Pairwise fun r s => r.stop = s.start → r.kind ≠ s.kind := by
  fun_induction mergeLoop current rest with
  | case1 current => exact List.pairwise_singleton _ _
  | case2 current region rest hadj ih =>
    exact ih (h.merge hadj)
  | case3 current region rest hadj ih =>
    refine List.pairwise_cons.mpr ⟨fun r hr htouch => ?_, ih h.tail⟩
    -- Only the first of the merged regions after `current` can touch it, and that has the kind of
    -- `region`.
    obtain ⟨s, l, hmerge, hsstart, hskind⟩ := mergeLoop_head region rest
    have hpaint := (mergeLoop_painted h.tail).1
    have hle := (List.pairwise_cons.mp h.ordered).1 region (by simp)
    rw [hmerge] at hr hpaint
    rcases List.mem_cons.mp hr with rfl | hr
    · intro hkind
      exact hadj ⟨by rw [← hskind, hkind], by rw [← hsstart, htouch]⟩
    · have hord := (List.pairwise_cons.mp hpaint.ordered).1 r hr
      have hne := hpaint.nonempty s (by simp)
      omega

/-- The addresses of the merged spans are those that are kept. -/
theorem contains_merged_iff (regions : List PhysRegion) (a : ℕ) :
    (∃ r ∈ merged regions, r.Contains a) ↔ (keptAt regions a).isSome := by
  rw [← contains_spanLoop_iff]
  have hspans := spans_painted regions
  rw [merged]
  cases hs : spanLoop regions (sortU64 (endpoints regions)) [] with
  | nil => rfl
  | cons current rest =>
    rw [hs] at hspans
    exact mergeLoop_contains hspans

/-- Merged spans that touch differ in kind. -/
theorem merged_separated (regions : List PhysRegion) :
    (merged regions).Pairwise fun r s => r.stop = s.start → r.kind ≠ s.kind := by
  have hspans := spans_painted regions
  rw [merged]
  cases hs : spanLoop regions (sortU64 (endpoints regions)) [] with
  | nil => exact List.Pairwise.nil
  | cons current rest =>
    rw [hs] at hspans
    exact mergeLoop_separated hspans

/-- A merged span has the kind that its addresses keep. -/
theorem keptAt_of_mem_merged {regions : List PhysRegion} {r : PhysRegion} (hr : r ∈ merged regions)
    {a : ℕ} (ha : r.Contains a) : keptAt regions a = some r.kind := by
  obtain ⟨k, hk⟩ := Option.isSome_iff_exists.mp ((contains_merged_iff regions a).mp ⟨r, hr, ha⟩)
  have hkind := (merged_painted regions).paints r hr a ha
  rw [(keptAt_eq_some.mp hk).2] at hkind
  rw [hk, hkind]

/-- Addresses in a row that keep one kind are in one merged span. -/
theorem merged_interval {regions : List PhysRegion} {x y : ℕ} (hxy : x < y) {k : RegionKind}
    (h : ∀ a, x ≤ a → a < y → keptAt regions a = some k) :
    ∃ r ∈ merged regions, r.kind = k ∧ r.start ≤ x ∧ y ≤ r.stop := by
  have hordered : Ordered (merged regions) := (merged_painted regions).ordered
  have hcover : ∀ a, x ≤ a → a < y → ∃ r ∈ merged regions, r.Contains a ∧ r.kind = k := by
    intro a hxa hay
    have hkept := h a hxa hay
    obtain ⟨r, hr, ha⟩ := (contains_merged_iff regions a).mpr (by rw [hkept]; rfl)
    rw [keptAt_of_mem_merged hr ha] at hkept
    exact ⟨r, hr, ha, Option.some.inj hkept⟩
  obtain ⟨r, hr, hc, hrk⟩ := hcover x le_rfl hxy
  refine ⟨r, hr, hrk, hc.1, ?_⟩
  -- If the span ended before `y`, the span after it would touch it and have its kind.
  by_contra hlt
  have hstop : x < r.stop := hc.2
  obtain ⟨s, hs, hsc, hsk⟩ := hcover r.stop hstop.le (by omega)
  have hrs : r ≠ s := by
    rintro rfl
    have := hsc.2
    omega
  rcases rel_or_rel (hordered.and (merged_separated regions)) hr hs hrs with ⟨hle, htouch⟩ | ⟨hle, -⟩
  · exact htouch (Nat.le_antisymm hle hsc.1) (hrk.trans hsk.symm)
  · have hlast := hsc.2
    have hfirst := hc.1
    omega

/-- A maximal run of addresses that keep one kind. -/
structure Run (regions : List PhysRegion) (r : PhysRegion) : Prop where
  lt : r.start < r.stop
  kept : ∀ a, r.Contains a → keptAt regions a = some r.kind
  before : ∀ a, a + 1 = r.start → keptAt regions a ≠ some r.kind
  after : keptAt regions r.stop ≠ some r.kind

/-- The merged spans of a map are its maximal runs. -/
theorem mem_merged_iff {regions : List PhysRegion} {r : PhysRegion} :
    r ∈ merged regions ↔ Run regions r := by
  have hpaint : Painted regions (merged regions) := merged_painted regions
  constructor
  · intro hr
    have hlt := hpaint.nonempty r hr
    -- A longer run would be in one merged span, which is `r` itself.
    have hlonger : ∀ x y, x ≤ r.start → r.stop ≤ y →
        (∀ a, x ≤ a → a < y → keptAt regions a = some r.kind) → x = r.start ∧ y = r.stop := by
      intro x y hx hy h
      obtain ⟨s, hs, -, hlo, hhi⟩ := merged_interval (show x < y by omega) h
      have heq := hpaint.ordered.apart.eq_of_contains hr hs (a := r.start) ⟨le_rfl, hlt⟩
        ⟨by omega, by omega⟩
      subst heq
      omega
    refine ⟨hlt, fun a ha => keptAt_of_mem_merged hr ha, fun a ha hk => ?_, fun hk => ?_⟩
    · have heq := hlonger a r.stop (by omega) le_rfl fun b hb hb' => by
        rcases Nat.eq_or_lt_of_le hb with rfl | hlt
        · exact hk
        · exact keptAt_of_mem_merged hr ⟨by omega, hb'⟩
      omega
    · have heq := hlonger r.start (r.stop + 1) le_rfl (Nat.le_succ _) fun b hb hb' => by
        rcases Nat.eq_or_lt_of_le (Nat.le_of_lt_succ hb') with rfl | hlt
        · exact hk
        · exact keptAt_of_mem_merged hr ⟨hb, hlt⟩
      omega
  · intro hrun
    obtain ⟨s, hs, hk, hlo, hhi⟩ := merged_interval hrun.lt fun a ha ha' => hrun.kept a ⟨ha, ha'⟩
    have hstart : s.start = r.start := by
      by_contra hne
      refine hrun.before (r.start - 1) (by omega) ?_
      have hlt := hrun.lt
      rw [keptAt_of_mem_merged hs ⟨by omega, by omega⟩, hk]
    have hstop : s.stop = r.stop := by
      by_contra hne
      refine hrun.after ?_
      have hlt := hrun.lt
      rw [keptAt_of_mem_merged hs ⟨by omega, by omega⟩, hk]
    have heq : s = r := by
      obtain ⟨sstart, sstop, skind⟩ := s
      cases hstart
      cases hstop
      cases hk
      rfl
    exact heq ▸ hs

/-! ## `normalize` -/

/-- Pages in a row that keep usable RAM are in one usable region of `normalize`. -/
theorem normalize_interval {m : MemoryMap} (hends : ∀ r ∈ m.regions, r.stop ≤ 2^64 - 4096) {x y : ℕ}
    (hxy : x < y) (hx : x % pageSize = 0) (hy : y % pageSize = 0)
    (h : ∀ a, x ≤ a → a < y → keptAt m.regions a = some .usableRam) :
    ∃ r ∈ m.normalize.regions, r.kind = .usableRam ∧ r.start ≤ x ∧ y ≤ r.stop := by
  have hpaint := merged_painted m.regions
  obtain ⟨r, hr, hk, hstart, hstop⟩ := merged_interval hxy h
  refine ⟨alignRegion r, mem_normalize_iff.mpr ⟨r, hr, rfl⟩, ?_⟩
  unfold pageSize at hx hy
  rw [alignRegion_usable (hpaint.nonempty r hr) (hpaint.stop_le hends hr) hk, if_neg (by omega)]
  refine ⟨rfl, ?_, ?_⟩
  · show (r.start + 4095) / 4096 * 4096 ≤ x
    omega
  · show y ≤ r.stop / 4096 * 4096
    omega

/-- With room for the spans of a map, pages in a row of usable RAM are in one usable region of
`normalize`. -/
theorem normalize_complete {m : MemoryMap} (hends : ∀ r ∈ m.regions, r.stop ≤ 2^64 - 4096)
    (hroom : (endpoints m.regions).dedup.length ≤ maxRegions + 1) {x y : ℕ} (hxy : x < y)
    (hx : x % pageSize = 0) (hy : y % pageSize = 0)
    (h : ∀ a, x ≤ a → a < y → kindAt m.regions a = some .usableRam) :
    ∃ r ∈ m.normalize.regions, r.kind = .usableRam ∧ r.start ≤ x ∧ y ≤ r.stop :=
  normalize_interval hends hxy hx hy fun a ha ha' =>
    keptAt_eq_some.mpr ⟨spanStarts_le_of_room hroom a, h a ha ha'⟩

/-! ## What is lost -/

/-- `PhysRange`. -/
structure PhysRange where
  start : ℕ
  stop : ℕ
deriving DecidableEq, Repr

/-- `usable_regions`. -/
def NormalizedMap.usableRegions (n : NormalizedMap) : List PhysRange :=
  (n.regions.filter fun r => r.kind = .usableRam).map fun r => ⟨r.start, r.stop⟩

/-- Every byte of a page is in regions of usable RAM, and in no others. -/
def PageUsable (regions : List PhysRegion) (page : ℕ) : Prop :=
  ∀ a, a / pageSize = page →
    (∃ r ∈ regions, r.kind = .usableRam ∧ r.Contains a) ∧
      ∀ r ∈ regions, r.Contains a → r.kind = .usableRam

/-- `normalize` keeps the usable pages of a map, and the addresses of its other regions. -/
structure LosesNothing (m : MemoryMap) : Prop where
  pages : ∀ page, PageUsable m.regions page →
    ∃ r ∈ m.normalize.usableRegions, r.start ≤ page * pageSize ∧ (page + 1) * pageSize ≤ r.stop
  others : ∀ a, (∃ r ∈ m.regions, r.kind ≠ .usableRam ∧ r.Contains a) →
    ∃ r ∈ m.normalize.regions, r.Contains a

/-- An address that `normalize` should keep. -/
def Needed (regions : List PhysRegion) (a : ℕ) : Prop :=
  (∃ r ∈ regions, r.kind ≠ .usableRam ∧ r.Contains a) ∨ PageUsable regions (a / pageSize)

/-- A range of `usable_regions` is a usable region. -/
theorem mem_usableRegions {n : NormalizedMap} {r : PhysRange} :
    r ∈ n.usableRegions ↔ ∃ s ∈ n.regions, s.kind = .usableRam ∧ ⟨s.start, s.stop⟩ = r := by
  simp only [NormalizedMap.usableRegions, List.mem_map, List.mem_filter, decide_eq_true_eq,
    and_assoc]

/-- Where all regions are usable RAM, that is the kind. -/
theorem kindAt_of_usable {regions : List PhysRegion} {a : ℕ}
    (hsome : ∃ r ∈ regions, r.kind = .usableRam ∧ r.Contains a)
    (hall : ∀ r ∈ regions, r.Contains a → r.kind = .usableRam) :
    kindAt regions a = some .usableRam := by
  obtain ⟨r, hr, -, ha⟩ := hsome
  obtain ⟨k, hk⟩ := Option.isSome_iff_exists.mp (kindAt_isSome_iff.mpr ⟨r, hr, ha⟩)
  obtain ⟨s, hs, hsa, hsk⟩ := (highest_of_kindAt hk).mem
  rw [hk, ← hsk, hall s hs hsa]

/-- A region of `normalize` has only addresses for whose spans there was room. -/
theorem spanStarts_le_of_mem_normalize {m : MemoryMap} (hends : ∀ r ∈ m.regions, r.stop ≤ 2^64 - 4096)
    {r : PhysRegion} (hr : r ∈ m.normalize.regions) {a : ℕ} (ha : r.Contains a) :
    spanStarts m.regions a ≤ maxRegions := by
  have hpaint := merged_painted m.regions
  obtain ⟨s, hs, rfl⟩ := mem_normalize_iff.mp hr
  have hsa := (alignRegion_spec (hpaint.nonempty s hs) (hpaint.stop_le hends hs) ha).2.1
  exact (keptAt_eq_some.mp (keptAt_of_mem_merged hs hsa)).1

/-- With room for the span of each address of another region than usable RAM, all of them are kept. -/
theorem others_kept {m : MemoryMap} {a : ℕ} (hroom : spanStarts m.regions a ≤ maxRegions)
    (ha : ∃ r ∈ m.regions, r.kind ≠ .usableRam ∧ r.Contains a) :
    ∃ r ∈ m.normalize.regions, r.Contains a := by
  obtain ⟨r, hr, hrk, hra⟩ := ha
  obtain ⟨k, hk⟩ := Option.isSome_iff_exists.mp (kindAt_isSome_iff.mpr ⟨r, hr, hra⟩)
  have hkept : keptAt m.regions a = some k := keptAt_eq_some.mpr ⟨hroom, hk⟩
  obtain ⟨s, hs, hsa⟩ := (contains_merged_iff m.regions a).mpr (by rw [hkept]; rfl)
  -- The span that the address is in is not usable RAM, so `align_usable` leaves it alone.
  have hsk : s.kind ≠ .usableRam := by
    rintro husable
    rw [keptAt_of_mem_merged hs hsa, husable] at hkept
    cases hkept
    exact hrk (eq_usableRam_of_le ((highest_of_kindAt hk).le r hr hra))
  exact ⟨s, mem_normalize_iff.mpr ⟨s, hs, alignRegion_other hsk⟩, hsa⟩

/-- If nothing is lost, there was room for the span of each needed address. -/
theorem LosesNothing.room {m : MemoryMap} (h : LosesNothing m)
    (hends : ∀ r ∈ m.regions, r.stop ≤ 2^64 - 4096) {a : ℕ} (ha : Needed m.regions a) :
    spanStarts m.regions a ≤ maxRegions := by
  rcases ha with hother | hpage
  · obtain ⟨r, hr, hra⟩ := h.others a hother
    exact spanStarts_le_of_mem_normalize hends hr hra
  · obtain ⟨range, hrange, hlo, hhi⟩ := h.pages _ hpage
    obtain ⟨r, hr, -, rfl⟩ := mem_usableRegions.mp hrange
    refine spanStarts_le_of_mem_normalize hends hr ?_
    have hmod := Nat.div_add_mod a pageSize
    have hlt : a % pageSize < pageSize := Nat.mod_lt a (by decide)
    simp only [Nat.add_mul, Nat.mul_comm (a / pageSize)] at hlo hhi
    exact ⟨by omega, by omega⟩

/-- `normalize` loses nothing exactly if, at each address of a page that is all usable RAM and of each
region of another kind, at most 128 spans have begun. -/
theorem losesNothing_iff (m : MemoryMap) (hends : ∀ r ∈ m.regions, r.stop ≤ 2^64 - 4096) :
    LosesNothing m ↔ ∀ a, Needed m.regions a → spanStarts m.regions a ≤ maxRegions := by
  constructor
  · intro h a ha
    exact h.room hends ha
  · intro hroom
    refine ⟨fun page hpage => ?_, fun a ha => others_kept (hroom a (.inl ha)) ha⟩
    have hkept : ∀ a, page * pageSize ≤ a → a < (page + 1) * pageSize →
        keptAt m.regions a = some .usableRam := by
      intro a hlo hhi
      have hdiv : a / pageSize = page := Nat.div_eq_of_lt_le hlo hhi
      obtain ⟨hsome, hall⟩ := hpage a hdiv
      exact keptAt_eq_some.mpr ⟨hroom a (.inr (hdiv ▸ hpage)), kindAt_of_usable hsome hall⟩
    have hlt : page * pageSize < (page + 1) * pageSize := by
      rw [Nat.add_mul]
      exact Nat.lt_add_of_pos_right (by decide)
    obtain ⟨r, hr, hk, hlo, hhi⟩ := normalize_interval hends hlt (Nat.mul_mod_left ..)
      (Nat.mul_mod_left ..) hkept
    exact ⟨⟨r.start, r.stop⟩, mem_usableRegions.mpr ⟨r, hr, hk, rfl⟩, hlo, hhi⟩

/-- RAM with every other one of its first pages reserved: 129 spans from 65 regions. -/
def crowdedCalls : List MemoryMap.Call :=
  ⟨0, 0x40000000, .usableRam⟩ ::
    (List.range 64).map fun i => ⟨UInt64.ofNat (2 * i + 1) * 4096, 4096, .reserved⟩

/-- `losesNothing_iff` at a map with one region. -/
theorem losesNothing_iff_ram :
    LosesNothing (MemoryMap.new.addAll [⟨0, 0x40000000, .usableRam⟩]) ↔
      ∀ a, Needed (MemoryMap.new.addAll [⟨0, 0x40000000, .usableRam⟩]).regions a →
        spanStarts (MemoryMap.new.addAll [⟨0, 0x40000000, .usableRam⟩]).regions a ≤ maxRegions :=
  losesNothing_iff _ (by decide)

/-- The RAM after the last reserved page of the crowded map is lost. -/
theorem losesNothing_crowded :
    (∀ r ∈ (MemoryMap.new.addAll crowdedCalls).regions, r.stop ≤ 2^64 - 4096) ∧
      ¬ LosesNothing (MemoryMap.new.addAll crowdedCalls) := by
  have hends : ∀ r ∈ (MemoryMap.new.addAll crowdedCalls).regions, r.stop ≤ 2^64 - 4096 := by
    decide +kernel
  refine ⟨hends, fun h => ?_⟩
  -- The page at `0x80000` lies past all reserved pages, and in RAM.
  have hpage : PageUsable (MemoryMap.new.addAll crowdedCalls).regions (0x80000 / pageSize) := by
    have hram : ∃ r ∈ (MemoryMap.new.addAll crowdedCalls).regions,
        r.kind = .usableRam ∧ r.start ≤ 0x80000 ∧ 0x81000 ≤ r.stop := by decide +kernel
    have hothers : ∀ r ∈ (MemoryMap.new.addAll crowdedCalls).regions,
        r.kind = .usableRam ∨ r.stop ≤ 0x80000 := by decide +kernel
    intro a ha
    have hlo : 0x80000 ≤ a := by
      unfold pageSize at ha
      omega
    have hhi : a < 0x81000 := by
      unfold pageSize at ha
      omega
    constructor
    · obtain ⟨r, hr, hk, hstart, hstop⟩ := hram
      exact ⟨r, hr, hk, hstart.trans hlo, hhi.trans_le hstop⟩
    · intro r hr hra
      exact (hothers r hr).resolve_right fun hle => absurd (hlo.trans_lt hra.2) (Nat.not_lt.mpr hle)
  have hroom := h.room hends (.inr hpage)
  exact absurd hroom (by decide +kernel)

end Ralix.Mm
