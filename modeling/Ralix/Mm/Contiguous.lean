import Ralix.Mm.FrameSpec

/-!
# The first free run

`alloc_contiguous` finds the lowest run of free frames that is long enough, if there is one, and takes
exactly its frames, so that giving them back in any order gives the old bitmap (`allocContiguous_spec`).
The model of its loop counts the places that are left, and `allocContiguous_eq_while` says that the
loop of the source, with the sums of machine words, does the same.
-/

namespace Ralix.Mm

open Lib

namespace FrameAllocator

variable {a : FrameAllocator}

/-! ## The loop of the source -/

/-- The outer loop of `alloc_contiguous` with the sums of the source, for at most `fuel` steps. The
inner `while` and the `for` run from `idx` to `idx + pages`. -/
def contiguousWhile (a : FrameAllocator) (pages : ℕ) : ℕ → ℕ → Exec (Option ℕ × FrameAllocator)
  | 0, _ => .error .halt
  | fuel + 1, idx =>
    if wadd idx pages ≤ a.frameCount then do
      if ← a.checkLoop idx (wadd idx pages - idx) then
        let a ← Exec.forRange (fun bit a => a.setBit bit) idx (wadd idx pages - idx) a
        return (some (wmul idx pageSize), a)
      else a.contiguousWhile pages fuel (idx + 1)
    else .ok (none, a)

/-- From a place that is no more than one past the last, the two loops do the same. -/
theorem contiguousWhile_eq {pages : ℕ} (hp : pages < 2^64) {fuel idx n : ℕ} (hfuel : n < fuel)
    (hidx : idx = 0 ∨ idx + pages ≤ a.frameCount + 1) (hn : n = a.frameCount + 1 - pages - idx) :
    a.contiguousWhile pages fuel idx = a.contiguousLoop pages idx n := by
  have hcount := a.count_le
  induction n generalizing fuel idx with
  | zero =>
    obtain ⟨fuel, rfl⟩ := Nat.exists_eq_succ_of_ne_zero (Nat.ne_of_gt hfuel)
    -- The sum has passed the number of frames, and not the end of the words.
    have hover : ¬ wadd idx pages ≤ a.frameCount := by
      rw [wadd_of_lt (by omega)]
      omega
    rw [contiguousWhile, if_neg hover, contiguousLoop]
  | succ n ih =>
    obtain ⟨fuel, rfl⟩ := Nat.exists_eq_succ_of_ne_zero (Nat.ne_of_gt (Nat.zero_lt_of_lt hfuel))
    have hsum : wadd idx pages = idx + pages := wadd_of_lt (by omega)
    have hle : idx + pages ≤ a.frameCount := by omega
    rw [contiguousWhile, hsum, if_pos hle, Nat.add_sub_cancel_left, contiguousLoop,
      ih (by omega) (.inr (by omega)) (by omega)]

/-- `alloc_contiguous` is the loop of the source, which takes a step for each frame at most. -/
theorem allocContiguous_eq_while {pages : ℕ} (hp : pages < 2^64) (hpos : pages ≠ 0) {fuel : ℕ}
    (hfuel : a.frameCount < fuel) : a.allocContiguous pages = a.contiguousWhile pages fuel 0 := by
  rw [allocContiguous, if_neg hpos]
  exact (contiguousWhile_eq hp (by omega) (.inl rfl) rfl).symm

/-! ## One frame -/

/-- A check of one bit. -/
theorem checkLoop_one (a : FrameAllocator) (idx : ℕ) :
    a.checkLoop idx 1 = a.testBit idx >>= fun used => pure (!used) := by
  rw [checkLoop]
  congr 1
  funext used
  cases used
  · rfl
  · rfl

/-- A loop that sets one bit. -/
theorem setRange_one (a : FrameAllocator) (idx : ℕ) :
    Exec.forRange (fun bit a => a.setBit bit) idx 1 a = a.setBit idx := by
  rw [Exec.forRange]
  cases a.setBit idx with
  | error e => rfl
  | ok a' => rfl

/-- The loop of `alloc_frame` is that of `alloc_contiguous` for one page. -/
theorem frameLoop_eq (a : FrameAllocator) (idx n : ℕ) :
    a.frameLoop idx n = a.contiguousLoop 1 idx n := by
  induction n generalizing idx with
  | zero => rfl
  | succ n ih =>
    rw [frameLoop, contiguousLoop, checkLoop_one, setRange_one, ih]
    cases a.testBit idx with
    | error e => rfl
    | ok used => rfl

/-- `alloc_frame` is `alloc_contiguous` for one page. -/
theorem allocFrame_eq (a : FrameAllocator) : a.allocFrame = a.allocContiguous 1 := by
  rw [allocFrame, allocContiguous, if_neg Nat.one_ne_zero, Nat.add_sub_cancel]
  exact frameLoop_eq a 0 _

/-! ## Giving the frames back -/

/-- `free_frame` for each of some addresses, in order. -/
def freeAll (a : FrameAllocator) (paddrs : List ℕ) : Exec FrameAllocator :=
  paddrs.foldlM (fun a paddr => a.freeFrame paddr) a

/-- Freeing frames of the allocator adds them to the free ones. -/
theorem freeAll_ok {paddrs : List ℕ} (h : ∀ p ∈ paddrs, p / pageSize < a.frameCount) :
    ∃ a', a.freeAll paddrs = .ok a' ∧
      Marked a a' (a.free ∪ (paddrs.map (· / pageSize)).toFinset) := by
  induction paddrs generalizing a with
  | nil => exact ⟨a, rfl, by simpa using Marked.refl a⟩
  | cons p paddrs ih =>
    obtain ⟨hp, hrest⟩ := List.forall_mem_cons.mp h
    obtain ⟨a₁, h₁, hmark₁⟩ := freeFrame_ok hp
    obtain ⟨a₂, h₂, hmark₂⟩ := ih (a := a₁) (hmark₁.count ▸ hrest)
    refine ⟨a₂, ?_, ?_⟩
    · rw [freeAll, List.foldlM_cons, h₁]
      exact h₂
    · have hmark := hmark₁.trans hmark₂
      rwa [hmark₁.free_eq, Finset.insert_union, ← Finset.union_insert, ← List.toFinset_cons] at hmark

/-- The addresses of a run of frames. -/
def runFrames (idx pages : ℕ) : List ℕ := (List.range' idx pages).map (· * pageSize)

/-- The frame of the address of a frame. -/
theorem mul_pageSize_div (i : ℕ) : i * pageSize / pageSize = i :=
  Nat.mul_div_cancel i (by decide)

/-- Freeing the frames of a run that was taken, in any order, gives the allocator back. -/
theorem freeAll_taken {a' : FrameAllocator} {idx pages : ℕ} (hrun : idx + pages ≤ a.frameCount)
    (hfree : Finset.Ico idx (idx + pages) ⊆ a.free)
    (hmark : Marked a a' (a.free \ Finset.Ico idx (idx + pages))) {paddrs : List ℕ}
    (hperm : paddrs.Perm (runFrames idx pages)) : a'.freeAll paddrs = .ok a := by
  have hmem : ∀ i, i ∈ paddrs.map (· / pageSize) ↔ i ∈ Finset.Ico idx (idx + pages) := by
    intro i
    rw [(hperm.map _).mem_iff, runFrames, List.map_map, Finset.mem_Ico]
    simp only [List.mem_map, List.mem_range'_1, Function.comp_apply, mul_pageSize_div,
      exists_eq_right]
  have hbound : ∀ p ∈ paddrs, p / pageSize < a'.frameCount := by
    intro p hp
    have hi := Finset.mem_Ico.mp ((hmem _).mp (List.mem_map_of_mem hp))
    rw [hmark.count]
    omega
  obtain ⟨a'', hrestore, hmark'⟩ := freeAll_ok hbound
  have hset : (paddrs.map (· / pageSize)).toFinset = Finset.Ico idx (idx + pages) := by
    ext i
    rw [List.mem_toFinset, hmem]
  rw [hset, hmark.free_eq, Finset.sdiff_union_of_subset hfree] at hmark'
  rw [hrestore, (hmark.trans hmark').eq rfl]

/-! ## The result -/

/-- The frames of the run are frames of the allocator, and all free. -/
def FreeRun (a : FrameAllocator) (pages idx : ℕ) : Prop :=
  idx + pages ≤ a.frameCount ∧ ∀ i, idx ≤ i → i < idx + pages → i ∈ a.free

/-- A run of free frames as a set. -/
theorem freeRun_iff {pages idx : ℕ} : FreeRun a pages idx ↔
    idx + pages ≤ a.frameCount ∧ Finset.Ico idx (idx + pages) ⊆ a.free := by
  simp only [FreeRun, Finset.subset_iff, Finset.mem_Ico, and_imp]

/-- What a request for a run of frames comes to: nothing if no run is there, and else the first one, all
of whose frames are taken and no others, so that freeing them in any order undoes it. -/
structure Serves (a : FrameAllocator) (pages : ℕ) (res : Option ℕ) (a' : FrameAllocator) : Prop where
  none_iff : res = none ↔ pages = 0 ∨ ∀ idx, ¬ FreeRun a pages idx
  unchanged : res = none → a' = a
  first : ∀ p, res = some p → ∃ idx, p = idx * pageSize ∧ FreeRun a pages idx ∧
    (∀ j, FreeRun a pages j → idx ≤ j) ∧
    Marked a a' (a.free \ Finset.Ico idx (idx + pages)) ∧
    ∀ paddrs : List ℕ, paddrs.Perm (runFrames idx pages) → a'.freeAll paddrs = .ok a

/-- `alloc_contiguous` serves a request for any number of pages, and `alloc_frame` does what it does for
one. -/
theorem allocContiguous_spec (a : FrameAllocator) (pages : ℕ) :
    (∃ res a', a.allocContiguous pages = .ok (res, a') ∧ Serves a pages res a') ∧
      a.allocFrame = a.allocContiguous 1 := by
  refine ⟨?_, allocFrame_eq a⟩
  by_cases hzero : pages = 0
  · rw [allocContiguous, if_pos hzero]
    exact ⟨none, a, rfl, iff_of_true rfl (.inl hzero), fun _ => rfl, nofun⟩
  rw [allocContiguous, if_neg hzero]
  obtain ⟨res, a', hrun, htakes, hnone, hfirst⟩ := contiguousLoop_ok (a := a) pages 0
    (a.frameCount + 1 - pages) (by omega) (by omega)
  refine ⟨res, a', hrun, ?_⟩
  cases res with
  | none =>
    -- Every place from which a run fits has been tried.
    refine ⟨iff_of_true rfl (.inr fun idx hidx => ?_), fun _ => htakes, nofun⟩
    obtain ⟨hle, hfree⟩ := freeRun_iff.mp hidx
    exact hnone rfl idx (Nat.zero_le _) (by omega) hfree
  | some p =>
    obtain ⟨idx, rfl, hfree, hmark⟩ := htakes
    obtain ⟨hlt, hbefore⟩ := hfirst _ rfl
    have hidx : idx + pages ≤ a.frameCount := by
      have := Nat.lt_of_mul_lt_mul_right hlt
      omega
    have hfound : FreeRun a pages idx := freeRun_iff.mpr ⟨hidx, hfree⟩
    refine ⟨iff_of_false nofun ?_, nofun, ?_⟩
    · rintro (h | h)
      · exact hzero h
      · exact h idx hfound
    · rintro _ ⟨⟩
      refine ⟨idx, rfl, hfound, fun j hj => ?_, hmark, fun paddrs hperm =>
        freeAll_taken hidx hfree hmark hperm⟩
      by_contra hlt
      exact hbefore j (Nat.zero_le _)
        (Nat.mul_lt_mul_of_pos_right (Nat.not_le.mp hlt) (by decide)) (freeRun_iff.mp hj).2

end FrameAllocator

end Ralix.Mm
