import Mathlib.Data.List.Dedup
import Mathlib.Data.List.Perm.Subperm
import Ralix.Mm.Region

/-!
# What `normalize` returns

A list of regions describes a partial map from addresses to kinds, `kindAt`: an address has the
highest-priority kind among the regions that contain it. The boundaries that `normalize` sorts are
the regions' endpoints, so no region ends inside a span and `kindAt` is constant on it
(`spanKind_eq_kindAt`). The `spans` are therefore ordered, paint `kindAt` and leave no address out, and
what `normalize` collects is the first 128 of them.
`merge_adjacent` keeps both, and `align_usable` keeps the regions apart and makes the usable ones
whole pages. `normalize_spec` puts this together.
-/

namespace Ralix.Mm

open Lib Extent

/-! ## `sort_u64` -/

/-- A pass of `sort_u64` takes out the least value. -/
theorem sortPass_le (v : ℕ) (ws : List ℕ) : ∀ x ∈ v :: ws, (sortPass v ws).1 ≤ x := by
  fun_induction sortPass v ws with
  | case1 => simp
  | case2 v w ws hlt least rest heq ih =>
    rw [heq] at ih
    intro x hx
    rcases List.mem_cons.mp hx with rfl | hx
    · exact (ih w (by simp)).trans hlt.le
    · exact ih x hx
  | case3 v w ws hlt least rest heq ih =>
    rw [heq] at ih
    intro x hx
    rcases List.mem_cons.mp hx with rfl | hx
    · exact ih x (by simp)
    · rcases List.mem_cons.mp hx with rfl | hx
      · exact (ih v (by simp)).trans (Nat.not_lt.mp hlt)
      · exact ih x (by simp [hx])

/-- With a pass for each value, the loop sorts. -/
theorem sortLoop_sorted (n : ℕ) (vs : List ℕ) (h : vs.length ≤ n) :
    (sortLoop n vs).Pairwise (· ≤ ·) := by
  fun_induction sortLoop n vs with
  | case1 n v vs least rest heq ih =>
    have hperm := sortPass_perm v vs
    have hle := sortPass_le v vs
    rw [heq] at hperm hle
    have hlen : rest.length ≤ n := by
      have := hperm.length_eq
      simp only [List.length_cons] at this h
      omega
    refine List.pairwise_cons.mpr ⟨fun x hx => ?_, ih hlen⟩
    have hx := (sortLoop_perm n rest).mem_iff.mp hx
    exact hle x (hperm.mem_iff.mp (List.mem_cons_of_mem _ hx))
  | case2 n vs hnot =>
    -- The list is empty, as there is a step left for each of its elements.
    rcases vs with _ | ⟨v, vs⟩
    · exact List.Pairwise.nil
    · obtain ⟨n, rfl⟩ := Nat.exists_eq_succ_of_ne_zero (Nat.ne_of_gt (Nat.zero_lt_of_lt h))
      exact (hnot n v vs rfl rfl).elim

/-- `sort_u64` sorts. -/
theorem sortU64_sorted (vs : List ℕ) : (sortU64 vs).Pairwise (· ≤ ·) :=
  sortLoop_sorted _ _ le_rfl

/-- `sort_u64` keeps the values. -/
theorem mem_sortU64 {vs : List ℕ} {x : ℕ} : x ∈ sortU64 vs ↔ x ∈ vs :=
  (sortLoop_perm _ _).mem_iff

/-! ## The kind of a span -/

/-- Every kind has a priority above that of no kind. -/
theorem kindPriority_pos (k : RegionKind) : 0 < kindPriority k := by
  cases k <;> decide

/-- Usable RAM has the lowest priority. -/
theorem eq_usableRam_of_le {k : RegionKind} (h : kindPriority k ≤ kindPriority .usableRam) :
    k = .usableRam := by
  cases k <;> first | rfl | exact absurd h (by decide)

/-- A kind is the one of highest priority among the regions that satisfy `P`. -/
structure Highest (regions : List PhysRegion) (P : PhysRegion → Prop) (k : RegionKind) : Prop where
  mem : ∃ r ∈ regions, P r ∧ r.kind = k
  le : ∀ r ∈ regions, P r → kindPriority r.kind ≤ kindPriority k

/-- The kind of an address: that of the regions on its byte. -/
def kindAt (regions : List PhysRegion) (a : ℕ) : Option RegionKind := spanKind regions a (a + 1)

/-- What the loop of `spanKind` knows after some of the regions. -/
structure Best (s e : ℕ) (seen : List PhysRegion) (best : Option RegionKind × ℕ) : Prop where
  le : ∀ r ∈ seen, r.start ≤ s ∧ e ≤ r.stop → kindPriority r.kind ≤ best.2
  mem : ∀ k, best.1 = some k →
    best.2 = kindPriority k ∧ ∃ r ∈ seen, (r.start ≤ s ∧ e ≤ r.stop) ∧ r.kind = k
  none : best.1 = none → best.2 = 0

/-- One region more. -/
theorem Best.step {s e : ℕ} {seen : List PhysRegion} {best : Option RegionKind × ℕ}
    (h : Best s e seen best) (region : PhysRegion) :
    Best s e (seen ++ [region]) (spanStep s e best region) := by
  have hmem : ∀ k, best.1 = some k → best.2 = kindPriority k ∧
      ∃ r ∈ seen ++ [region], (r.start ≤ s ∧ e ≤ r.stop) ∧ r.kind = k := by
    intro k hk
    obtain ⟨hprio, r, hr, hc⟩ := h.mem k hk
    exact ⟨hprio, r, List.mem_append_left _ hr, hc⟩
  unfold spanStep
  dsimp only
  split_ifs with hcover hprio
  · refine ⟨fun r hr hc => ?_, fun k hk => ?_, fun hk => by cases hk⟩
    · rcases List.mem_append.mp hr with hr | hr
      · exact (h.le r hr hc).trans hprio.le
      · rw [List.mem_singleton.mp hr]
    · cases hk
      exact ⟨rfl, region, by simp, hcover, rfl⟩
  · refine ⟨fun r hr hc => ?_, hmem, h.none⟩
    rcases List.mem_append.mp hr with hr | hr
    · exact h.le r hr hc
    · rw [List.mem_singleton.mp hr]
      exact Nat.not_lt.mp hprio
  · refine ⟨fun r hr hc => ?_, hmem, h.none⟩
    rcases List.mem_append.mp hr with hr | hr
    · exact h.le r hr hc
    · rw [List.mem_singleton.mp hr] at hc
      exact absurd hc hcover

/-- All regions more. -/
theorem Best.fold {s e : ℕ} {seen : List PhysRegion} {best : Option RegionKind × ℕ}
    (h : Best s e seen best) (rest : List PhysRegion) :
    Best s e (seen ++ rest) (rest.foldl (spanStep s e) best) := by
  induction rest generalizing seen best with
  | nil => simpa using h
  | cons region rest ih =>
    have hrest := ih (h.step region)
    rwa [List.append_assoc] at hrest

/-- The loop's state after all regions. -/
theorem best_of_regions (regions : List PhysRegion) (s e : ℕ) :
    Best s e regions (regions.foldl (spanStep s e) (none, 0)) := by
  have hnil : Best s e [] (none, 0) := ⟨by simp, by simp, fun _ => rfl⟩
  exact hnil.fold regions

/-- The kind of a span is the one of highest priority among the regions that cover it. -/
theorem highest_of_spanKind {regions : List PhysRegion} {s e : ℕ} {k : RegionKind}
    (h : spanKind regions s e = some k) :
    Highest regions (fun r => r.start ≤ s ∧ e ≤ r.stop) k := by
  have hbest := best_of_regions regions s e
  obtain ⟨hprio, hmem⟩ := hbest.mem k h
  exact ⟨hmem, fun r hr hc => hprio ▸ hbest.le r hr hc⟩

/-- A span has no kind only if no region covers it. -/
theorem spanKind_eq_none {regions : List PhysRegion} {s e : ℕ} (h : spanKind regions s e = none) :
    ∀ r ∈ regions, ¬ (r.start ≤ s ∧ e ≤ r.stop) := by
  intro r hr hc
  have hbest := best_of_regions regions s e
  have hle := hbest.le r hr hc
  have hpos := kindPriority_pos r.kind
  have hzero := hbest.none h
  omega

/-- The kind of an address is the one of highest priority among the regions that contain it. -/
theorem highest_of_kindAt {regions : List PhysRegion} {a : ℕ} {k : RegionKind}
    (h : kindAt regions a = some k) : Highest regions (·.Contains a) k :=
  highest_of_spanKind h

/-- A span that no endpoint splits has the kind of each of its addresses. -/
theorem spanKind_eq_kindAt {regions : List PhysRegion} {s e a : ℕ}
    (hgap : Gap (endpoints regions) s e) (hs : s ≤ a) (he : a < e) :
    spanKind regions s e = kindAt regions a := by
  unfold kindAt spanKind
  congr 1
  apply List.foldl_ext
  intro best r hr
  simp only [spanStep, ge_iff_le, hgap.covers_iff hs he hr]

/-! ## The passes -/

/-- The regions are ordered, none is empty, and each has the kind of its addresses. -/
structure Painted (regions out : List PhysRegion) : Prop where
  ordered : Ordered out
  paints : Paints (kindAt regions) out
  nonempty : ∀ r ∈ out, r.start < r.stop

/-- Every endpoint that is not behind the boundaries left is one of them. -/
def Ahead (regions : List PhysRegion) (bs : List ℕ) : Prop :=
  ∀ b ∈ endpoints regions, b ∈ bs ∨ ∀ x ∈ bs, b ≤ x

/-- The first boundary falls behind. -/
theorem Ahead.tail {regions : List PhysRegion} {s : ℕ} {rest : List ℕ} (h : Ahead regions (s :: rest))
    (hbs : (s :: rest).Pairwise (· ≤ ·)) : Ahead regions rest := by
  intro b hb
  rcases h b hb with hb | hb
  · rcases List.mem_cons.mp hb with rfl | hb
    · exact .inr (List.pairwise_cons.mp hbs).1
    · exact .inl hb
  · exact .inr fun x hx => hb x (List.mem_cons_of_mem _ hx)

/-- The spans between some boundaries that have a kind, however many there are. -/
def spans (regions : List PhysRegion) : List ℕ → List PhysRegion
  | start :: stop :: rest =>
    if start = stop then spans regions (stop :: rest)
    else
      match spanKind regions start stop with
      | some kind => ⟨start, stop, kind⟩ :: spans regions (stop :: rest)
      | none => spans regions (stop :: rest)
  | _ => []

/-- `push` appends a region as far as there is room. -/
theorem push_eq_take {out : List PhysRegion} (h : out.length ≤ maxRegions) (r : PhysRegion) :
    push out r = (out ++ [r]).take maxRegions := by
  unfold push
  split
  · rename_i hfull
    rw [List.take_append_of_le_length hfull, List.take_of_length_le h]
  · rw [List.take_of_length_le]
    rw [List.length_append, List.length_singleton]
    omega

/-- The loop of `normalize` collects the first spans, as many as there is room for. -/
theorem spanLoop_eq (regions : List PhysRegion) (bs : List ℕ) {out : List PhysRegion}
    (h : out.length ≤ maxRegions) :
    spanLoop regions bs out = (out ++ spans regions bs).take maxRegions := by
  fun_induction spanLoop regions bs out with
  | case1 start rest out ih => rw [ih h, spans, if_pos rfl]
  | case2 start stop rest out hne kind hkind ih =>
    rw [ih (length_push_le h _), push_eq_take h, spans, if_neg hne, hkind, MemoryMap.take_take_append,
      List.append_assoc, List.singleton_append]
  | case3 start stop rest out hne hkind ih =>
    rw [ih h, spans, if_neg hne, hkind]
  | case4 bs out hshort =>
    have hnil : spans regions bs = [] := by
      unfold spans
      split
      · exact (hshort _ _ _ rfl).elim
      · rfl
    rw [hnil, List.append_nil, List.take_of_length_le h]

/-- A span runs from one boundary to the next, and no endpoint splits it. -/
theorem mem_spans {regions : List PhysRegion} {bs : List ℕ} (hbs : bs.Pairwise (· ≤ ·))
    (hends : Ahead regions bs) {r : PhysRegion} (hr : r ∈ spans regions bs) :
    (r.start ∈ bs ∧ r.stop ∈ bs) ∧ r.start < r.stop ∧ Gap (endpoints regions) r.start r.stop ∧
      spanKind regions r.start r.stop = some r.kind := by
  have hcons : ∀ {start : ℕ} {rest : List ℕ}, r.start ∈ rest ∧ r.stop ∈ rest →
      r.start ∈ start :: rest ∧ r.stop ∈ start :: rest :=
    fun h => ⟨List.mem_cons_of_mem _ h.1, List.mem_cons_of_mem _ h.2⟩
  fun_induction spans regions bs with
  | case1 start rest ih => exact (ih hbs.tail (hends.tail hbs) hr).imp_left hcons
  | case2 start stop rest hne kind hkind ih =>
    rcases List.mem_cons.mp hr with rfl | hr
    · have hle := (List.pairwise_cons.mp hbs).1 stop List.mem_cons_self
      exact ⟨⟨List.mem_cons_self, List.mem_cons_of_mem _ List.mem_cons_self⟩,
        Nat.lt_of_le_of_ne hle hne, gap_of_sorted hbs hends, hkind⟩
    · exact (ih hbs.tail (hends.tail hbs) hr).imp_left hcons
  | case3 start stop rest hne hkind ih => exact (ih hbs.tail (hends.tail hbs) hr).imp_left hcons
  | case4 => cases hr

/-- The spans run upwards. -/
theorem spans_ordered {regions : List PhysRegion} {bs : List ℕ} (hbs : bs.Pairwise (· ≤ ·))
    (hends : Ahead regions bs) : Ordered (spans regions bs) := by
  fun_induction spans regions bs with
  | case1 start rest ih => exact ih hbs.tail (hends.tail hbs)
  | case2 start stop rest hne kind hkind ih =>
    refine List.pairwise_cons.mpr ⟨fun r hr => ?_, ih hbs.tail (hends.tail hbs)⟩
    obtain ⟨⟨hstart, -⟩, -⟩ := mem_spans hbs.tail (hends.tail hbs) hr
    rcases List.mem_cons.mp hstart with heq | hmem
    · exact heq.ge
    · exact (List.pairwise_cons.mp hbs.tail).1 _ hmem
  | case3 start stop rest hne hkind ih => exact ih hbs.tail (hends.tail hbs)
  | case4 => exact List.Pairwise.nil

/-- Every address between the boundaries that has a kind is in a span. -/
theorem spans_complete {regions : List PhysRegion} {bs : List ℕ} (hbs : bs.Pairwise (· ≤ ·))
    (hends : Ahead regions bs) {a : ℕ} (hlo : ∃ x ∈ bs, x ≤ a) (hhi : ∃ y ∈ bs, a < y)
    (hk : (kindAt regions a).isSome) : ∃ r ∈ spans regions bs, r.Contains a := by
  -- Past the first span, the address is still between the boundaries that are left.
  have hnext : ∀ {start stop : ℕ} {rest : List ℕ}, stop ≤ a → (start :: stop :: rest).Pairwise (· ≤ ·) →
      (∃ y ∈ start :: stop :: rest, a < y) →
      (∃ x ∈ stop :: rest, x ≤ a) ∧ ∃ y ∈ stop :: rest, a < y := by
    intro start stop rest hle hbs hhi
    obtain ⟨y, hy, hay⟩ := hhi
    rcases List.mem_cons.mp hy with rfl | hy
    · have := (List.pairwise_cons.mp hbs).1 stop List.mem_cons_self
      omega
    · exact ⟨⟨stop, List.mem_cons_self, hle⟩, y, hy, hay⟩
  have hfirst : ∀ {start : ℕ} {rest : List ℕ}, (start :: rest).Pairwise (· ≤ ·) →
      (∃ x ∈ start :: rest, x ≤ a) → start ≤ a := by
    intro start rest hbs hlo
    obtain ⟨x, hx, hxa⟩ := hlo
    rcases List.mem_cons.mp hx with rfl | hx
    · exact hxa
    · exact ((List.pairwise_cons.mp hbs).1 x hx).trans hxa
  fun_induction spans regions bs with
  | case1 start rest ih =>
    obtain ⟨hlo', hhi'⟩ := hnext (hfirst hbs hlo) hbs hhi
    exact ih hbs.tail (hends.tail hbs) hlo' hhi'
  | case2 start stop rest hne kind hkind ih =>
    rcases Nat.lt_or_ge a stop with ha | ha
    · exact ⟨_, List.mem_cons_self, hfirst hbs hlo, ha⟩
    · obtain ⟨hlo', hhi'⟩ := hnext ha hbs hhi
      obtain ⟨r, hr, hra⟩ := ih hbs.tail (hends.tail hbs) hlo' hhi'
      exact ⟨r, List.mem_cons_of_mem _ hr, hra⟩
  | case3 start stop rest hne hkind ih =>
    rcases Nat.lt_or_ge a stop with ha | ha
    · -- No region covers this span, so the address has no kind.
      rw [← spanKind_eq_kindAt (gap_of_sorted hbs hends) (hfirst hbs hlo) ha, hkind] at hk
      cases hk
    · obtain ⟨hlo', hhi'⟩ := hnext ha hbs hhi
      exact ih hbs.tail (hends.tail hbs) hlo' hhi'
  | case4 bs hshort =>
    obtain ⟨x, hx, hxa⟩ := hlo
    obtain ⟨y, hy, hay⟩ := hhi
    rcases bs with _ | ⟨s, _ | ⟨e, rest⟩⟩
    · cases hx
    · rw [List.mem_singleton] at hx hy
      omega
    · exact (hshort s e rest rfl).elim

/-- Some of the regions, in order. -/
theorem Painted.sublist {regions out out' : List PhysRegion} (h : Painted regions out)
    (hsub : out'.Sublist out) : Painted regions out' :=
  ⟨h.ordered.sublist hsub, fun r hr => h.paints r (hsub.subset hr),
    fun r hr => h.nonempty r (hsub.subset hr)⟩

/-- The regions after the first. -/
theorem Painted.tail {regions out : List PhysRegion} {r : PhysRegion}
    (h : Painted regions (r :: out)) : Painted regions out :=
  ⟨(List.pairwise_cons.mp h.ordered).2, fun s hs => h.paints s (List.mem_cons_of_mem _ hs),
    fun s hs => h.nonempty s (List.mem_cons_of_mem _ hs)⟩

/-- Two regions of one kind that touch may be merged. -/
theorem Painted.merge {regions rest : List PhysRegion} {current region : PhysRegion}
    (h : Painted regions (current :: region :: rest))
    (hadj : region.kind = current.kind ∧ region.start = current.stop) :
    Painted regions ({ current with stop := region.stop } :: rest) := by
  have hcur := h.nonempty current (by simp)
  have hreg := h.nonempty region (by simp)
  have hord := (List.pairwise_cons.mp h.ordered).2
  refine ⟨List.pairwise_cons.mpr (List.pairwise_cons.mp hord), fun r hr a ha => ?_,
    fun r hr => ?_⟩
  · rcases List.mem_cons.mp hr with rfl | hr
    · -- An address of the merged region is in one of its two parts.
      rcases Nat.lt_or_ge a current.stop with hlt | hge
      · exact h.paints current (by simp) a ⟨ha.1, hlt⟩
      · have hk := h.paints region (by simp) a ⟨hadj.2 ▸ hge, ha.2⟩
        rwa [hadj.1] at hk
    · exact h.paints r (by simp [hr]) a ha
  · rcases List.mem_cons.mp hr with rfl | hr
    · show current.start < region.stop
      omega
    · exact h.nonempty r (by simp [hr])

/-- `merge_adjacent` keeps what the loop has collected. -/
theorem mergeLoop_painted {regions : List PhysRegion} {current : PhysRegion}
    {rest : List PhysRegion} (h : Painted regions (current :: rest)) :
    Painted regions (mergeLoop current rest) ∧
      ∀ r ∈ mergeLoop current rest, current.start ≤ r.start := by
  fun_induction mergeLoop current rest with
  | case1 current =>
    refine ⟨h, fun r hr => ?_⟩
    rw [List.mem_singleton.mp hr]
  | case2 current region rest hadj ih => exact ih (h.merge hadj)
  | case3 current region rest hadj ih =>
    -- what comes out of the rest may have grown, but only to the right
    obtain ⟨hih, hstart⟩ := ih h.tail
    have hcr := (List.pairwise_cons.mp h.ordered).1 region (by simp)
    have hcur := h.nonempty current (by simp)
    refine ⟨⟨List.pairwise_cons.mpr ⟨fun r hr => hcr.trans (hstart r hr), hih.ordered⟩, ?_, ?_⟩,
      fun r hr => ?_⟩
    · intro r hr
      rcases List.mem_cons.mp hr with rfl | hr
      · exact h.paints r (by simp)
      · exact hih.paints r hr
    · intro r hr
      rcases List.mem_cons.mp hr with rfl | hr
      · exact hcur
      · exact hih.nonempty r hr
    · rcases List.mem_cons.mp hr with rfl | hr
      · exact le_rfl
      · have := hstart r hr
        omega

/-- The sorted boundaries of a map leave nothing behind. -/
theorem ahead_sorted (regions : List PhysRegion) : Ahead regions (sortU64 (endpoints regions)) :=
  fun _ hb => .inl (mem_sortU64.mpr hb)

/-- All spans of a map. -/
theorem allSpans_painted (regions : List PhysRegion) :
    Painted regions (spans regions (sortU64 (endpoints regions))) where
  ordered := spans_ordered (sortU64_sorted _) (ahead_sorted regions)
  paints := by
    intro r hr a ha
    obtain ⟨-, -, hgap, hkind⟩ := mem_spans (sortU64_sorted _) (ahead_sorted regions) hr
    rw [← spanKind_eq_kindAt hgap ha.1 ha.2, hkind]
  nonempty r hr := (mem_spans (sortU64_sorted _) (ahead_sorted regions) hr).2.1

/-- The spans of a map that there is room for. -/
theorem spans_painted (regions : List PhysRegion) :
    Painted regions (spanLoop regions (sortU64 (endpoints regions)) []) := by
  rw [spanLoop_eq regions _ (Nat.zero_le _), List.nil_append]
  exact (allSpans_painted regions).sublist (List.take_sublist _ _)

/-- What `merge_adjacent` makes of the spans of a map. -/
def merged (regions : List PhysRegion) : List PhysRegion :=
  mergeAdjacent (spanLoop regions (sortU64 (endpoints regions)) [])

/-- The spans of a map, merged. -/
theorem merged_painted (regions : List PhysRegion) : Painted regions (merged regions) := by
  have hspans := spans_painted regions
  rw [merged]
  rcases hs : spanLoop regions (sortU64 (endpoints regions)) [] with _ | ⟨current, rest⟩
  · exact ⟨List.Pairwise.nil, by simp [Paints, mergeAdjacent], by simp [mergeAdjacent]⟩
  · rw [hs] at hspans
    exact (mergeLoop_painted hspans).1

/-! ## `normalize` -/

/-- `align_usable` leaves of a usable region the pages inside it. -/
theorem alignRegion_usable {r : PhysRegion} (hr : r.start < r.stop)
    (hstop : r.stop ≤ 2^64 - 4096) (hk : r.kind = .usableRam) :
    alignRegion r = if r.stop / 4096 * 4096 ≤ (r.start + 4095) / 4096 * 4096
      then ⟨0, 0, .reserved⟩
      else ⟨(r.start + 4095) / 4096 * 4096, r.stop / 4096 * 4096, .usableRam⟩ := by
  rw [alignRegion, if_neg (not_not.mpr hk), alignUp_page (by omega), alignDown_page (by omega)]

/-- `align_usable` leaves the other regions alone. -/
theorem alignRegion_other {r : PhysRegion} (hk : r.kind ≠ .usableRam) : alignRegion r = r :=
  if_pos hk

/-- The addresses of a region after `align_usable` were in the region, and those of a usable one
with their whole page. -/
theorem alignRegion_spec {r : PhysRegion} (hr : r.start < r.stop) (hstop : r.stop ≤ 2^64 - 4096)
    {a : ℕ} (ha : (alignRegion r).Contains a) :
    (alignRegion r).kind = r.kind ∧ r.Contains a ∧
      (r.kind = .usableRam → ∀ b, b / pageSize = a / pageSize → r.Contains b) := by
  by_cases hk : r.kind = .usableRam
  · rw [alignRegion_usable hr hstop hk] at ha ⊢
    split at ha
    · exact absurd ha.2 (Nat.not_lt_zero a)
    · rename_i hne
      rw [if_neg hne]
      obtain ⟨hlo, hhi⟩ := ha
      simp only at hlo hhi
      refine ⟨hk.symm, ⟨by omega, by omega⟩, fun _ b hb => ?_⟩
      unfold pageSize at hb
      constructor <;> omega
  · rw [alignRegion_other hk] at ha ⊢
    exact ⟨rfl, ha, fun h => absurd h hk⟩

/-- A region of `normalize` comes from a merged span. -/
theorem mem_normalize_iff {m : MemoryMap} {r : PhysRegion} :
    r ∈ m.normalize.regions ↔ ∃ s ∈ merged m.regions, alignRegion s = r := List.mem_map

/-- A painted region ends where a region of the map ends, or before. -/
theorem Painted.stop_le {regions out : List PhysRegion} (h : Painted regions out) {n : ℕ}
    (hends : ∀ r ∈ regions, r.stop ≤ n) {r : PhysRegion} (hr : r ∈ out) : r.stop ≤ n := by
  have hne := h.nonempty r hr
  have hlast : r.Contains (r.stop - 1) := ⟨by omega, by omega⟩
  obtain ⟨s, hs, hcon, -⟩ := (highest_of_kindAt (h.paints r hr _ hlast)).mem
  have hcon := hcon.2
  have := hends s hs
  omega

/-- No region of `normalize` ends after those of the map. -/
theorem normalize_stop_le {m : MemoryMap} {n : ℕ} (hn : n ≤ 2^64 - 4096)
    (hends : ∀ r ∈ m.regions, r.stop ≤ n) : ∀ r ∈ m.normalize.regions, r.stop ≤ n := by
  have hpaint := merged_painted m.regions
  intro r hr
  obtain ⟨s, hs, rfl⟩ := mem_normalize_iff.mp hr
  have hstop := hpaint.stop_le hends hs
  by_cases hk : s.kind = .usableRam
  · rw [alignRegion_usable (hpaint.nonempty s hs) (hstop.trans hn) hk]
    split
    · exact Nat.zero_le _
    · exact (Nat.div_mul_le_self _ _).trans hstop
  · rwa [alignRegion_other hk]

/-- The regions of `normalize` are apart. -/
theorem normalize_apart {m : MemoryMap} (hends : ∀ r ∈ m.regions, r.stop ≤ 2^64 - 4096) :
    Apart m.normalize.regions := by
  have hpaint := merged_painted m.regions
  show (alignUsable _).Pairwise _
  rw [alignUsable, List.pairwise_map]
  refine hpaint.ordered.apart.imp_of_mem fun {r s} hr hs hrs a ha hb => ?_
  have hra := (alignRegion_spec (hpaint.nonempty r hr) (hpaint.stop_le hends hr) ha).2.1
  have hsa := (alignRegion_spec (hpaint.nonempty s hs) (hpaint.stop_le hends hs) hb).2.1
  exact hrs a hra hsa

/-- An address of a region of `normalize` has the region's kind, and if that is usable RAM then so
has the whole page. -/
theorem kindAt_of_mem_normalize {m : MemoryMap} (hends : ∀ r ∈ m.regions, r.stop ≤ 2^64 - 4096)
    {r : PhysRegion} (hr : r ∈ m.normalize.regions) {a : ℕ} (ha : r.Contains a) :
    kindAt m.regions a = some r.kind ∧
      (r.kind = .usableRam →
        ∀ b, b / pageSize = a / pageSize → kindAt m.regions b = some .usableRam) := by
  have hpaint := merged_painted m.regions
  obtain ⟨s, hs, rfl⟩ := mem_normalize_iff.mp hr
  obtain ⟨hkind, hsa, hpage⟩ :=
    alignRegion_spec (hpaint.nonempty s hs) (hpaint.stop_le hends hs) ha
  rw [hkind]
  refine ⟨hpaint.paints s hs a hsa, fun hk b hb => ?_⟩
  rw [← hk]
  exact hpaint.paints s hs b (hpage hk b hb)

/-- Where the kind is usable RAM, there is a usable region and none of another kind. -/
theorem usable_of_kindAt {regions : List PhysRegion} {b : ℕ}
    (h : kindAt regions b = some .usableRam) :
    (∃ s ∈ regions, s.kind = .usableRam ∧ s.Contains b) ∧
      ∀ s ∈ regions, s.Contains b → s.kind = .usableRam := by
  obtain ⟨⟨s, hs, hc, hk⟩, hle⟩ := highest_of_kindAt h
  exact ⟨⟨s, hs, hk, hc⟩, fun t ht htc => eq_usableRam_of_le (hle t ht htc)⟩

/-- The usable regions of `normalize` consist of whole pages. -/
theorem normalize_aligned {m : MemoryMap} (hends : ∀ r ∈ m.regions, r.stop ≤ 2^64 - 4096)
    {r : PhysRegion} (hr : r ∈ m.normalize.regions) (hk : r.kind = .usableRam) :
    r.start % pageSize = 0 ∧ r.stop % pageSize = 0 := by
  have hpaint := merged_painted m.regions
  obtain ⟨s, hs, rfl⟩ := mem_normalize_iff.mp hr
  by_cases hks : s.kind = .usableRam
  · rw [alignRegion_usable (hpaint.nonempty s hs) (hpaint.stop_le hends hs) hks]
    split
    · exact ⟨rfl, rfl⟩
    · exact ⟨Nat.mul_mod_left _ _, Nat.mul_mod_left _ _⟩
  · rw [alignRegion_other hks] at hk
    exact absurd hk hks

/-- An address of the normalized map is in exactly one region, which has the highest-priority kind
among the regions registered on the address. If that is usable RAM, then the whole page of the
address is usable RAM and nothing else. -/
theorem normalize_spec (calls : List MemoryMap.Call)
    (hends : ∀ r ∈ (MemoryMap.new.addAll calls).regions, r.stop ≤ 2^64 - 4096) (r : PhysRegion)
    (hr : r ∈ (MemoryMap.new.addAll calls).normalize.regions) (a : ℕ) (ha : r.Contains a) :
    (MemoryMap.new.addAll calls).normalize.regions.countP (fun s => decide (s.Contains a)) = 1 ∧
      Highest (MemoryMap.new.addAll calls).regions (·.Contains a) r.kind ∧
      (r.kind = .usableRam → ∀ b, b / pageSize = a / pageSize →
        (∃ s ∈ (MemoryMap.new.addAll calls).regions, s.kind = .usableRam ∧ s.Contains b) ∧
          ∀ s ∈ (MemoryMap.new.addAll calls).regions, s.Contains b → s.kind = .usableRam) := by
  obtain ⟨hkind, hpage⟩ := kindAt_of_mem_normalize hends hr ha
  exact ⟨(normalize_apart hends).countP_eq_one hr ha, highest_of_kindAt hkind,
    fun hk b hb => usable_of_kindAt (hpage hk b hb)⟩

/-- RAM, with a kernel image that ends inside a page. -/
def sampleCalls : List MemoryMap.Call :=
  [⟨0, 0x40000000, .usableRam⟩, ⟨0x80000, 0x1800, .kernelImage⟩]

/-- `normalize_spec` at the first usable address past the kernel image. -/
theorem normalize_spec_sample :
    (MemoryMap.new.addAll sampleCalls).normalize.regions.countP
        (fun s => decide (s.Contains 0x82000)) = 1 ∧
      Highest (MemoryMap.new.addAll sampleCalls).regions (·.Contains 0x82000) .usableRam :=
  have h := normalize_spec sampleCalls (by decide) ⟨0x82000, 0x40000000, .usableRam⟩ (by decide)
    0x82000 (by decide)
  ⟨h.1, h.2.1⟩

end Ralix.Mm
