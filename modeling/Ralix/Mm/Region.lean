import Ralix.Lib.Extent
import Ralix.Mm.Layout

/-!
# Memory maps

`src/mm/region.rs`. A `MemoryMap` collects the ranges that the firmware and the kernel register, and
`normalize` cuts them at their endpoints, gives each span the kind of highest priority that covers
it, and returns a `NormalizedMap` of merged spans with the usable ones trimmed to pages. The arrays
of 128 entries with their `len` are lists of at most 128 entries. `add_region` and `push` do nothing
when they are full.
-/

namespace Ralix.Mm

open Lib

inductive RegionKind where
  | usableRam
  | reserved
  | mmio
  | kernelImage
  | bootStack
  | bootInfo
deriving DecidableEq, Repr

/-- `PhysRegion`. -/
abbrev PhysRegion := Extent RegionKind

/-- The capacity of both maps. -/
def maxRegions : ℕ := 128

structure MemoryMap where
  regions : List PhysRegion
  length_le : regions.length ≤ maxRegions
  bounded : ∀ r ∈ regions, r.start < 2^64 ∧ r.stop < 2^64

structure NormalizedMap where
  regions : List PhysRegion
  length_le : regions.length ≤ maxRegions
  bounded : ∀ r ∈ regions, r.start < 2^64 ∧ r.stop < 2^64

namespace MemoryMap

/-- `MemoryMap::new`. -/
def new : MemoryMap where
  regions := []
  length_le := Nat.zero_le _
  bounded := by simp

/-- The region that `add_region` stores, which ends at the last address at most. -/
def regionOf (start size : UInt64) (kind : RegionKind) : PhysRegion :=
  ⟨start.toNat, min (start.toNat + size.toNat) (2^64 - 1), kind⟩

/-- `add_region`. -/
def addRegion (m : MemoryMap) (start size : UInt64) (kind : RegionKind) : MemoryMap :=
  if h : size = 0 ∨ m.regions.length ≥ maxRegions then m
  else
    { regions := m.regions ++ [regionOf start size kind]
      length_le := by
        rw [List.length_append, List.length_singleton]
        omega
      bounded := by
        intro r hr
        rcases List.mem_append.mp hr with hr | hr
        · exact m.bounded r hr
        · rw [List.mem_singleton.mp hr]
          have := start.toNat_lt
          exact ⟨this, (Nat.min_le_right _ _).trans_lt (by decide)⟩ }

/-- `add_range`. -/
def addRange (m : MemoryMap) (start stop : UInt64) (kind : RegionKind) : MemoryMap :=
  if stop ≤ start then m else m.addRegion start (stop - start) kind

/-- The arguments of a call to `add_region`. -/
structure Call where
  start : UInt64
  size : UInt64
  kind : RegionKind
deriving DecidableEq

/-- The region that a call stores. -/
def Call.region (c : Call) : PhysRegion := regionOf c.start c.size c.kind

/-- The map after a sequence of calls to `add_region`. -/
def addAll (m : MemoryMap) (calls : List Call) : MemoryMap :=
  calls.foldl (fun m c => m.addRegion c.start c.size c.kind) m

/-- Calls after calls. -/
theorem addAll_append (m : MemoryMap) (calls calls' : List Call) :
    m.addAll (calls ++ calls') = (m.addAll calls).addAll calls' := List.foldl_append

/-- A call with a size stores its region while there is room. -/
theorem regions_addRegion (m : MemoryMap) (c : Call) :
    (m.addRegion c.start c.size c.kind).regions =
      (m.regions ++ [c].filterMap fun c => if c.size = 0 then none else some c.region).take
        maxRegions := by
  have hlen := m.length_le
  unfold addRegion
  split
  · rename_i h
    rcases h with h | h
    · simp [h, List.take_of_length_le hlen]
    · by_cases hz : c.size = 0
      · simp [hz, List.take_of_length_le hlen]
      · have hfull : m.regions.length = maxRegions := Nat.le_antisymm hlen h
        simp [hz, ← hfull]
  · rename_i h
    rw [not_or] at h
    have hle : (m.regions ++ [c.region]).length ≤ maxRegions := by
      rw [List.length_append, List.length_singleton]
      omega
    simp only [List.filterMap_cons, if_neg h.1, List.filterMap_nil, List.take_of_length_le hle]
    rfl

/-- What is past the capacity in a first part makes no difference. -/
theorem take_take_append (a b : List PhysRegion) (n : ℕ) : (a.take n ++ b).take n = (a ++ b).take n := by
  rw [List.take_append, List.take_append, List.take_take, Nat.min_self, List.length_take]
  rcases Nat.lt_or_ge n a.length with h | h
  · simp [show n - a.length = 0 by omega, Nat.min_eq_left h.le]
  · simp [Nat.min_eq_right h]

/-- A sequence of calls stores the first regions that have a size, as many as there is room for. -/
theorem regions_addAll (m : MemoryMap) (calls : List Call) :
    (m.addAll calls).regions =
      (m.regions ++ calls.filterMap fun c => if c.size = 0 then none else some c.region).take
        maxRegions := by
  induction calls generalizing m with
  | nil => simp [addAll, List.take_of_length_le m.length_le]
  | cons c calls ih =>
    have hstep : m.addAll (c :: calls) = (m.addRegion c.start c.size c.kind).addAll calls := rfl
    rw [hstep, ih, regions_addRegion]
    rw [take_take_append, List.append_assoc, ← List.filterMap_append, List.singleton_append]

end MemoryMap

/-- `kind_priority`. -/
def kindPriority : RegionKind → ℕ
  | .kernelImage => 6
  | .bootStack => 5
  | .bootInfo => 4
  | .reserved => 3
  | .mmio => 2
  | .usableRam => 1

/-- The inner loop of `sort_u64` for `values[i]`: each later value below it changes places with
it. -/
def sortPass (v : ℕ) : List ℕ → ℕ × List ℕ
  | [] => (v, [])
  | w :: ws =>
    if w < v then
      let (least, rest) := sortPass w ws
      (least, v :: rest)
    else
      let (least, rest) := sortPass v ws
      (least, w :: rest)

/-- The outer loop of `sort_u64`, with `n` values left. -/
def sortLoop : ℕ → List ℕ → List ℕ
  | n + 1, v :: vs =>
    let (least, rest) := sortPass v vs
    least :: sortLoop n rest
  | _, vs => vs

/-- `sort_u64`. -/
def sortU64 (values : List ℕ) : List ℕ := sortLoop values.length values

/-- What `normalize` makes of the best kind so far, and its priority, at a region. -/
def spanStep (start stop : ℕ) (best : Option RegionKind × ℕ) (region : PhysRegion) :
    Option RegionKind × ℕ :=
  if region.start ≤ start ∧ region.stop ≥ stop then
    let prio := kindPriority region.kind
    if prio > best.2 then (some region.kind, prio) else best
  else best

/-- The kind that `normalize` gives a span: that of the first region of highest priority among those
that cover the span. -/
def spanKind (regions : List PhysRegion) (start stop : ℕ) : Option RegionKind :=
  (regions.foldl (spanStep start stop) (none, 0)).1

/-- `NormalizedMap::push`. -/
def push (out : List PhysRegion) (region : PhysRegion) : List PhysRegion :=
  if out.length ≥ maxRegions then out else out ++ [region]

/-- The loop of `normalize` over the sorted boundaries. -/
def spanLoop (regions : List PhysRegion) : List ℕ → List PhysRegion → List PhysRegion
  | start :: stop :: rest, out =>
    if start = stop then spanLoop regions (stop :: rest) out
    else
      match spanKind regions start stop with
      | some kind => spanLoop regions (stop :: rest) (push out ⟨start, stop, kind⟩)
      | none => spanLoop regions (stop :: rest) out
  | _, out => out

/-- The loop of `merge_adjacent`, after the region `current`. -/
def mergeLoop (current : PhysRegion) : List PhysRegion → List PhysRegion
  | [] => [current]
  | region :: rest =>
    if region.kind = current.kind ∧ region.start = current.stop then
      mergeLoop { current with stop := region.stop } rest
    else current :: mergeLoop region rest

/-- `merge_adjacent`. -/
def mergeAdjacent : List PhysRegion → List PhysRegion
  | [] => []
  | current :: rest => mergeLoop current rest

/-- What `align_usable` does to a region. -/
def alignRegion (region : PhysRegion) : PhysRegion :=
  if region.kind ≠ .usableRam then region
  else
    let start := alignUp region.start pageSize
    let stop := alignDown region.stop pageSize
    if stop ≤ start then ⟨0, 0, .reserved⟩ else ⟨start, stop, .usableRam⟩

/-- `align_usable`. -/
def alignUsable (regions : List PhysRegion) : List PhysRegion := regions.map alignRegion

/-- The regions that `normalize` returns. -/
def normalizeRegions (regions : List PhysRegion) : List PhysRegion :=
  alignUsable (mergeAdjacent (spanLoop regions (sortU64 (Extent.endpoints regions)) []))

/-! ## The result is a `NormalizedMap` -/

/-- `push` never passes the capacity. -/
theorem length_push_le {out : List PhysRegion} (h : out.length ≤ maxRegions) (r : PhysRegion) :
    (push out r).length ≤ maxRegions := by
  unfold push
  split
  · exact h
  · rw [List.length_append, List.length_singleton]
    omega

/-- `normalize` never passes the capacity. -/
theorem length_spanLoop_le (regions : List PhysRegion) (bs : List ℕ) {out : List PhysRegion}
    (h : out.length ≤ maxRegions) : (spanLoop regions bs out).length ≤ maxRegions := by
  fun_induction spanLoop regions bs out with
  | case1 start rest out ih => exact ih h
  | case2 start stop rest out hne kind hkind ih => exact ih (length_push_le h _)
  | case3 start stop rest out hne hkind ih => exact ih h
  | case4 => exact h

/-- `merge_adjacent` returns no more regions than it gets. -/
theorem length_mergeLoop_le (current : PhysRegion) (rest : List PhysRegion) :
    (mergeLoop current rest).length ≤ rest.length + 1 := by
  fun_induction mergeLoop current rest with
  | case1 => simp
  | case2 _ region rest _ ih => simpa using Nat.le_succ_of_le ih
  | case3 _ region rest _ ih => simpa using ih

/-- A property of single regions that holds of the spans holds of what `normalize` collects. -/
theorem forall_mem_spanLoop {P : PhysRegion → Prop} {regions : List PhysRegion} {bs : List ℕ}
    (hP : ∀ s ∈ bs, ∀ e ∈ bs, ∀ k, P ⟨s, e, k⟩) {out : List PhysRegion} (hout : ∀ r ∈ out, P r) :
    ∀ r ∈ spanLoop regions bs out, P r := by
  fun_induction spanLoop regions bs out with
  | case1 start rest out ih =>
    exact ih (fun s hs e he => hP s (List.mem_cons_of_mem _ hs) e (List.mem_cons_of_mem _ he)) hout
  | case2 start stop rest out hne kind hkind ih =>
    refine ih (fun s hs e he => hP s (List.mem_cons_of_mem _ hs) e (List.mem_cons_of_mem _ he)) ?_
    intro r hr
    unfold push at hr
    split at hr
    · exact hout r hr
    · rcases List.mem_append.mp hr with hr | hr
      · exact hout r hr
      · rw [List.mem_singleton.mp hr]
        exact hP start (by simp) stop (by simp) kind
  | case3 start stop rest out hne hkind ih =>
    exact ih (fun s hs e he => hP s (List.mem_cons_of_mem _ hs) e (List.mem_cons_of_mem _ he)) hout
  | case4 => exact hout

/-- The ends of a merged region are ends of the regions that went into it. -/
theorem forall_mem_mergeLoop {P : ℕ → Prop} {current : PhysRegion} {rest : List PhysRegion}
    (hcur : P current.start ∧ P current.stop) (hrest : ∀ r ∈ rest, P r.start ∧ P r.stop) :
    ∀ r ∈ mergeLoop current rest, P r.start ∧ P r.stop := by
  fun_induction mergeLoop current rest with
  | case1 current =>
    intro r hr
    rwa [List.mem_singleton.mp hr]
  | case2 current region rest _ ih =>
    exact ih ⟨hcur.1, (hrest region (by simp)).2⟩ fun r hr => hrest r (List.mem_cons_of_mem _ hr)
  | case3 current region rest _ ih =>
    intro r hr
    rcases List.mem_cons.mp hr with rfl | hr
    · exact hcur
    · exact ih (hrest region (by simp)) (fun r hr => hrest r (List.mem_cons_of_mem _ hr)) r hr

/-- One pass of `sort_u64` keeps the values. -/
theorem sortPass_perm (v : ℕ) (ws : List ℕ) :
    ((sortPass v ws).1 :: (sortPass v ws).2).Perm (v :: ws) := by
  fun_induction sortPass v ws with
  | case1 => rfl
  | case2 v w ws hlt least rest heq ih =>
    rw [heq] at ih
    exact (List.Perm.swap v least rest).trans (ih.cons v)
  | case3 v w ws hlt least rest heq ih =>
    rw [heq] at ih
    calc (least :: w :: rest).Perm (w :: least :: rest) := List.Perm.swap w least rest
      _ |>.Perm (w :: v :: ws) := ih.cons w
      _ |>.Perm (v :: w :: ws) := List.Perm.swap v w ws

/-- `sort_u64` keeps the values. -/
theorem sortLoop_perm (n : ℕ) (vs : List ℕ) : (sortLoop n vs).Perm vs := by
  fun_induction sortLoop n vs with
  | case1 n v vs least rest heq ih =>
    have hpass := sortPass_perm v vs
    rw [heq] at hpass
    exact (ih.cons least).trans hpass
  | case2 => rfl

/-- What `align_usable` makes of words are words. -/
theorem alignRegion_bounded {r : PhysRegion} (h : r.start < 2^64 ∧ r.stop < 2^64) :
    (alignRegion r).start < 2^64 ∧ (alignRegion r).stop < 2^64 := by
  unfold alignRegion
  split
  · exact h
  · dsimp only
    split
    · exact ⟨by decide, by decide⟩
    · exact ⟨Nat.and_le_left.trans_lt (wsub_lt _ _), Nat.and_le_left.trans_lt h.2⟩

/-- `normalize`. -/
def MemoryMap.normalize (m : MemoryMap) : NormalizedMap where
  regions := normalizeRegions m.regions
  length_le := by
    unfold normalizeRegions alignUsable
    rw [List.length_map]
    have hnil : ([] : List PhysRegion).length ≤ maxRegions := Nat.zero_le _
    have hlen := length_spanLoop_le m.regions (sortU64 (Extent.endpoints m.regions)) hnil
    match hspans : spanLoop m.regions (sortU64 (Extent.endpoints m.regions)) [] with
    | [] => exact Nat.zero_le _
    | current :: rest =>
      rw [hspans] at hlen
      exact (length_mergeLoop_le current rest).trans hlen
  bounded := by
    have hends : ∀ b ∈ sortU64 (Extent.endpoints m.regions), b < 2^64 := by
      intro b hb
      have hb := (sortLoop_perm _ _).mem_iff.mp hb
      simp only [Extent.endpoints, List.mem_flatMap] at hb
      obtain ⟨r, hr, hb⟩ := hb
      have hr := m.bounded r hr
      rcases List.mem_cons.mp hb with rfl | hb
      · exact hr.1
      · rw [List.mem_singleton.mp hb]
        exact hr.2
    have hspans : ∀ r ∈ spanLoop m.regions (sortU64 (Extent.endpoints m.regions)) [],
        r.start < 2^64 ∧ r.stop < 2^64 :=
      forall_mem_spanLoop (fun s hs e he _ => ⟨hends s hs, hends e he⟩) (by simp)
    intro r hr
    obtain ⟨r, hmem, rfl⟩ := List.mem_map.mp hr
    refine alignRegion_bounded ?_
    generalize spanLoop m.regions (sortU64 (Extent.endpoints m.regions)) [] = spans at hmem hspans
    match spans with
    | [] => simp [mergeAdjacent] at hmem
    | current :: rest =>
      exact forall_mem_mergeLoop (P := (· < 2^64)) (hspans current (by simp))
        (fun r hr => hspans r (List.mem_cons_of_mem _ hr)) r hmem

end Ralix.Mm
