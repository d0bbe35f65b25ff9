import Mathlib.Data.Finset.Card
import Mathlib.Order.Interval.Finset.Nat
import Ralix.Mm.Frame

/-!
# What the frame allocator does

The bitmap stands for the set of its clear bits, `FrameAllocator.free`. `Marked` says what an
operation does to it and that it leaves the rest of the allocator alone. `Takes` is what
`alloc_frame` and `alloc_contiguous` have in common: they return nothing and change nothing, or
they take a run of free frames. `frameInit_spec` gives the set after `frame::init`.
-/

namespace Ralix.Mm

open Lib

namespace FrameAllocator

/-- The frames whose bits are clear. -/
def free (a : FrameAllocator) : Finset ℕ := Bitmap.zeros a.bitmap

/-- The operation leaves these frames free, and changes nothing else. -/
structure Marked (a a' : FrameAllocator) (free : Finset ℕ) : Prop where
  count : a'.frameCount = a.frameCount
  paddr : a'.bitmapPaddr = a.bitmapPaddr
  length : a'.bitmap.length = a.bitmap.length
  free_eq : a'.free = free

variable {a a' : FrameAllocator}

/-- Changing nothing. -/
theorem Marked.refl (a : FrameAllocator) : Marked a a a.free := ⟨rfl, rfl, rfl, rfl⟩

/-- One operation after another. -/
theorem Marked.trans {a'' : FrameAllocator} {s t : Finset ℕ} (h : Marked a a' s)
    (h' : Marked a' a'' t) : Marked a a'' t :=
  ⟨h'.count.trans h.count, h'.paddr.trans h.paddr, h'.length.trans h.length, h'.free_eq⟩

/-- The free frames may be given in another way. -/
theorem Marked.of_eq {s t : Finset ℕ} (h : Marked a a' s) (hst : s = t) : Marked a a' t := hst ▸ h

/-- Operations that leave the same frames free have the same result. -/
theorem Marked.eq {s : Finset ℕ} (h : Marked a a' s) (hs : a.free = s) : a' = a := by
  refine FrameAllocator.ext h.count h.paddr ?_
  exact Bitmap.ext_zeros h.length (h.free_eq.trans hs.symm)

/-- Every word of the bitmap is there. -/
theorem exists_word {idx : ℕ} (h : idx < 64 * a.bitmap.length) :
    ∃ word, a.bitmap[idx / 64]? = some word ∧ index a.bitmap (idx / 64) = .ok word := by
  have hlen : idx / 64 < a.bitmap.length := Bitmap.div_lt_length h
  exact ⟨_, List.getElem?_eq_getElem hlen, index_ok hlen⟩

/-- A bit is tested by a mask. -/
theorem and_one_shiftLeft (word : BitVec 64) {i : ℕ} (hi : i < 64) :
    (word &&& 1#64 <<< i != 0) = word.getLsbD i := by
  have hne : (word &&& 1#64 <<< i) = 0 ↔ word.getLsbD i = false := by
    constructor
    · intro h
      have hbit := congrArg (fun x => BitVec.getLsbD x i) h
      simpa [BitVec.getLsbD_and, Bitmap.getLsbD_one_shiftLeft hi] using hbit
    · intro h
      apply BitVec.eq_of_getLsbD_eq
      intro j hj
      rw [BitVec.getLsbD_and, Bitmap.getLsbD_one_shiftLeft hi]
      by_cases hij : i = j
      · subst hij
        simp [h]
      · simp [hij]
  rw [Bool.eq_iff_iff, bne_iff_ne, ne_eq, hne, Bool.not_eq_false]

/-- `test_bit` reads the bit. -/
theorem testBit_ok {idx : ℕ} (h : idx < 64 * a.bitmap.length) :
    a.testBit idx = .ok (decide (idx ∉ a.free)) := by
  obtain ⟨word, hword, hindex⟩ := exists_word h
  have hbit : word.getLsbD (idx % 64) = decide (idx ∉ a.free) := by
    have hmem : idx ∈ a.free ↔ word.getLsbD (idx % 64) = false := by
      rw [free, Bitmap.mem_zeros, Bitmap.bit, hword]
    simp [hmem]
  rw [testBit, hindex, Exec.ok_bind, Exec.pure_eq, and_one_shiftLeft word (Nat.mod_lt _ (by decide)),
    hbit]

/-- `set_bit` takes the frame. -/
theorem setBit_ok {idx : ℕ} (h : idx < 64 * a.bitmap.length) :
    ∃ a', a.setBit idx = .ok a' ∧ Marked a a' (a.free.erase idx) := by
  obtain ⟨word, hword, hindex⟩ := exists_word h
  refine ⟨a.setWord (idx / 64) (Bitmap.setIn word (idx % 64)), ?_, rfl, rfl, ?_, ?_⟩
  · rw [setBit, hindex, Exec.ok_bind, Exec.pure_eq]
  · exact List.length_set
  · exact Bitmap.zeros_set hword

/-- `clear_bit` frees the frame. -/
theorem clearBit_ok {idx : ℕ} (h : idx < 64 * a.bitmap.length) :
    ∃ a', a.clearBit idx = .ok a' ∧ Marked a a' (insert idx a.free) := by
  obtain ⟨word, hword, hindex⟩ := exists_word h
  refine ⟨a.setWord (idx / 64) (Bitmap.clearIn word (idx % 64)), ?_, rfl, rfl, ?_, ?_⟩
  · rw [clearBit, hindex, Exec.ok_bind, Exec.pure_eq]
  · exact List.length_set
  · exact Bitmap.zeros_clear hword

/-- A loop of `set_bit` takes a run of frames. -/
theorem setRange_ok {idx n : ℕ} (h : idx + n ≤ 64 * a.bitmap.length) :
    ∃ a', Exec.forRange (fun idx a => a.setBit idx) idx n a = .ok a' ∧
      Marked a a' (a.free \ Finset.Ico idx (idx + n)) := by
  refine Exec.forRange_ok (P := fun j b => Marked a b (a.free \ Finset.Ico idx j)) ?_ ?_
  · rw [Finset.Ico_self, Finset.sdiff_empty]
    exact Marked.refl a
  · intro j b hij hjn hb
    have hj : j < 64 * b.bitmap.length := by rw [hb.length]; omega
    obtain ⟨b', hb', hmark⟩ := setBit_ok hj
    refine ⟨b', hb', (hb.trans hmark).of_eq ?_⟩
    rw [hb.free_eq]
    ext x
    simp only [Finset.mem_erase, Finset.mem_sdiff, Finset.mem_Ico]
    grind

/-- A loop of `clear_bit` frees a run of frames. -/
theorem clearRange_ok {idx n : ℕ} (h : idx + n ≤ 64 * a.bitmap.length) :
    ∃ a', Exec.forRange (fun idx a => a.clearBit idx) idx n a = .ok a' ∧
      Marked a a' (a.free ∪ Finset.Ico idx (idx + n)) := by
  refine Exec.forRange_ok (P := fun j b => Marked a b (a.free ∪ Finset.Ico idx j)) ?_ ?_
  · rw [Finset.Ico_self, Finset.union_empty]
    exact Marked.refl a
  · intro j b hij hjn hb
    have hj : j < 64 * b.bitmap.length := by rw [hb.length]; omega
    obtain ⟨b', hb', hmark⟩ := clearBit_ok hj
    refine ⟨b', hb', (hb.trans hmark).of_eq ?_⟩
    rw [hb.free_eq]
    ext x
    simp only [Finset.mem_insert, Finset.mem_union, Finset.mem_Ico]
    grind

/-- `mark_free` frees the frames from that of `start` up to that of `stop`. -/
theorem markFree_ok (start : ℕ) {stop : ℕ} (h : stop / pageSize ≤ 64 * a.bitmap.length) :
    ∃ a', a.markFree start stop = .ok a' ∧
      Marked a a' (a.free ∪ Finset.Ico (start / pageSize) (stop / pageSize)) := by
  rcases Nat.lt_or_ge (stop / pageSize) (start / pageSize) with hlt | hge
  · refine ⟨a, ?_, ?_⟩
    · rw [markFree, Nat.sub_eq_zero_of_le hlt.le]
      rfl
    · rw [Finset.Ico_eq_empty_of_le hlt.le, Finset.union_empty]
      exact Marked.refl a
  · have hn : start / pageSize + (stop / pageSize - start / pageSize) = stop / pageSize :=
      Nat.add_sub_cancel' hge
    obtain ⟨a', ha', hmark⟩ := clearRange_ok (a := a) (hn.trans_le h)
    rw [hn] at hmark
    exact ⟨a', ha', hmark⟩

/-- `mark_used` takes the frames from that of `start` up to `stop`, rounded up. -/
theorem markUsed_ok (start : ℕ) {stop : ℕ}
    (h : alignUp stop pageSize / pageSize ≤ 64 * a.bitmap.length) :
    ∃ a', a.markUsed start stop = .ok a' ∧
      Marked a a' (a.free \ Finset.Ico (start / pageSize) (alignUp stop pageSize / pageSize)) := by
  rcases Nat.lt_or_ge (alignUp stop pageSize / pageSize) (start / pageSize) with hlt | hge
  · refine ⟨a, ?_, ?_⟩
    · rw [markUsed, Nat.sub_eq_zero_of_le hlt.le]
      rfl
    · rw [Finset.Ico_eq_empty_of_le hlt.le, Finset.sdiff_empty]
      exact Marked.refl a
  · have hn := Nat.add_sub_cancel' hge
    obtain ⟨a', ha', hmark⟩ := setRange_ok (a := a) (hn.trans_le h)
    rw [hn] at hmark
    exact ⟨a', ha', hmark⟩

/-- A `mark_used` that returns frees nothing. -/
theorem markUsed_subset {start stop : ℕ} (h : a.markUsed start stop = .ok a') :
    a'.free ⊆ a.free := by
  refine Exec.forRange_inv (P := fun b => b.free ⊆ a.free) h (Finset.Subset.refl _) ?_
  intro j b b' hb hsub
  obtain ⟨word, hindex, -⟩ := Exec.bind_eq_ok.mp hb
  have hlt := lt_of_index hindex
  obtain ⟨b'', hb'', hmark⟩ := setBit_ok (show j < 64 * b.bitmap.length by omega)
  rw [hb] at hb''
  cases hb''
  rw [hmark.free_eq]
  exact (Finset.erase_subset _ _).trans hsub

/-! ## Allocation -/

/-- What an allocation of `pages` frames does: nothing, or it takes a run of free frames and returns
the address of the first. -/
def Takes (a : FrameAllocator) (pages : ℕ) (res : Option ℕ) (a' : FrameAllocator) : Prop :=
  match res with
  | none => a' = a
  | some p => ∃ idx, p = idx * pageSize ∧ Finset.Ico idx (idx + pages) ⊆ a.free ∧
      Marked a a' (a.free \ Finset.Ico idx (idx + pages))

/-- All free frames are frames of the allocator. -/
def Valid (a : FrameAllocator) : Prop := ∀ i ∈ a.free, i < a.frameCount

/-- The address of a frame does not wrap. -/
theorem wmul_pageSize {idx : ℕ} (h : idx < a.frameCount) : wmul idx pageSize = idx * pageSize := by
  have hle := a.count_le
  refine wmul_of_lt ?_
  unfold pageSize
  omega

/-- The loop of `alloc_frame` takes the first free frame. -/
theorem frameLoop_ok {idx n : ℕ} (h : idx + n ≤ a.frameCount) :
    ∃ res a', a.frameLoop idx n = .ok (res, a') ∧ Takes a 1 res a' ∧
      (res = none → ∀ i, idx ≤ i → i < idx + n → i ∉ a.free) ∧
      ∀ p, res = some p → ∀ i, idx ≤ i → i * pageSize < p → i ∉ a.free := by
  have hfits := a.fits
  induction n generalizing idx with
  | zero => exact ⟨none, a, rfl, rfl, fun _ i h₁ h₂ => by omega, nofun⟩
  | succ n ih =>
    have hidx : idx < 64 * a.bitmap.length := by omega
    have htest := testBit_ok hidx
    by_cases hfree : idx ∈ a.free
    · obtain ⟨a', ha', hmark⟩ := setBit_ok hidx
      have hval : wmul idx pageSize = idx * pageSize := wmul_pageSize (a := a) (by omega)
      -- The loop stops here, and a frame before it would have stopped it earlier.
      refine ⟨some (idx * pageSize), a', ?_, ⟨idx, rfl, ?_, ?_⟩, nofun, ?_⟩
      · simp [frameLoop, htest, hfree, ha', hval]
      · intro i hi
        rw [Nat.Ico_succ_singleton, Finset.mem_singleton] at hi
        rwa [hi]
      · rwa [Nat.Ico_succ_singleton, Finset.sdiff_singleton_eq_erase]
      · intro p hp i hi hlt
        cases hp
        have := Nat.lt_of_mul_lt_mul_right hlt
        omega
    · obtain ⟨res, a', hrun, htakes, hnone, hfirst⟩ := ih (show idx + 1 + n ≤ a.frameCount by omega)
      refine ⟨res, a', ?_, htakes, fun hres i h₁ h₂ => ?_, fun p hp i h₁ hlt => ?_⟩
      · simp [frameLoop, htest, hfree, hrun]
      · rcases Nat.eq_or_lt_of_le h₁ with rfl | h₁
        · exact hfree
        · exact hnone hres i h₁ (by omega)
      · rcases Nat.eq_or_lt_of_le h₁ with rfl | h₁
        · exact hfree
        · exact hfirst p hp i h₁ hlt

/-- `alloc_frame` returns the first free frame, if there is one. -/
theorem allocFrame_ok (hv : a.Valid) :
    ∃ res a', a.allocFrame = .ok (res, a') ∧ Takes a 1 res a' ∧ (res = none → a.free = ∅) ∧
      ∀ p, res = some p → ∀ i, i * pageSize < p → i ∉ a.free := by
  obtain ⟨res, a', hrun, htakes, hnone, hfirst⟩ :=
    frameLoop_ok (show 0 + a.frameCount ≤ a.frameCount by omega)
  refine ⟨res, a', hrun, htakes, fun hres => ?_, fun p hp i => hfirst p hp i (Nat.zero_le _)⟩
  rw [Finset.eq_empty_iff_forall_notMem]
  intro i hi
  exact hnone hres i (Nat.zero_le _) (by have := hv i hi; omega) hi

/-- The inner loop of `alloc_contiguous` tells whether a run is free. -/
theorem checkLoop_ok {check n : ℕ} (h : check + n ≤ 64 * a.bitmap.length) :
    a.checkLoop check n = .ok (decide (Finset.Ico check (check + n) ⊆ a.free)) := by
  induction n generalizing check with
  | zero => simp [checkLoop]
  | succ n ih =>
    have htest := testBit_ok (show check < 64 * a.bitmap.length by omega)
    have hsplit : Finset.Ico check (check + (n + 1)) =
        insert check (Finset.Ico (check + 1) (check + 1 + n)) := by
      ext x
      simp only [Finset.mem_insert, Finset.mem_Ico]
      omega
    rw [checkLoop, htest, Exec.ok_bind, hsplit]
    by_cases hfree : check ∈ a.free
    · simp [hfree, ih (show check + 1 + n ≤ 64 * a.bitmap.length by omega),
        Finset.insert_subset_iff]
    · simp [hfree, Finset.insert_subset_iff]

/-- The outer loop of `alloc_contiguous` takes the first free run. -/
theorem contiguousLoop_ok (pages idx n : ℕ) (hp : 0 < pages)
    (h : n = 0 ∨ idx + n + pages ≤ a.frameCount + 1) :
    ∃ res a', a.contiguousLoop pages idx n = .ok (res, a') ∧ Takes a pages res a' ∧
      (res = none → ∀ i, idx ≤ i → i < idx + n → ¬ Finset.Ico i (i + pages) ⊆ a.free) ∧
      ∀ p, res = some p → p < (idx + n) * pageSize ∧
        ∀ i, idx ≤ i → i * pageSize < p → ¬ Finset.Ico i (i + pages) ⊆ a.free := by
  have hfits := a.fits
  induction n generalizing idx with
  | zero => exact ⟨none, a, rfl, rfl, fun _ i h₁ h₂ => by omega, nofun⟩
  | succ n ih =>
    have hrange : n = 0 ∨ idx + 1 + n + pages ≤ a.frameCount + 1 := by omega
    have hpages : idx + pages ≤ 64 * a.bitmap.length := by omega
    have hcheck := checkLoop_ok hpages
    by_cases hfree : Finset.Ico idx (idx + pages) ⊆ a.free
    · obtain ⟨a', ha', hmark⟩ := setRange_ok hpages
      have hval : wmul idx pageSize = idx * pageSize := wmul_pageSize (a := a) (by omega)
      refine ⟨some (idx * pageSize), a', ?_, ⟨idx, rfl, hfree, hmark⟩, nofun, fun p hp => ?_⟩
      · simp [contiguousLoop, hcheck, hfree, ha', hval]
      · cases hp
        refine ⟨Nat.mul_lt_mul_of_pos_right (by omega) (by decide), fun i hi hlt => ?_⟩
        have := Nat.lt_of_mul_lt_mul_right hlt
        omega
    · -- No run starts here, and the rest is that of the loop from the next frame on.
      obtain ⟨res, a', hrun, htakes, hnone, hfirst⟩ := ih (idx + 1) hrange
      have hnext : idx + 1 + n = idx + (n + 1) := by omega
      rw [hnext] at hnone hfirst
      refine ⟨res, a', ?_, htakes, fun hres i h₁ h₂ => ?_, fun p hp => ?_⟩
      · simp [contiguousLoop, hcheck, hfree, hrun]
      · rcases Nat.eq_or_lt_of_le h₁ with rfl | h₁
        · exact hfree
        · exact hnone hres i h₁ h₂
      · obtain ⟨hlt, hfirst⟩ := hfirst p hp
        refine ⟨hlt, fun i h₁ hip => ?_⟩
        rcases Nat.eq_or_lt_of_le h₁ with rfl | h₁
        · exact hfree
        · exact hfirst i h₁ hip

/-- `alloc_contiguous` returns a free run. -/
theorem allocContiguous_ok (a : FrameAllocator) (pages : ℕ) :
    ∃ res a', a.allocContiguous pages = .ok (res, a') ∧ Takes a pages res a' := by
  unfold allocContiguous
  split
  · exact ⟨none, a, rfl, rfl⟩
  · obtain ⟨res, a', hrun, htakes, -⟩ := contiguousLoop_ok (a := a) pages 0
      (a.frameCount + 1 - pages) (by omega) (by omega)
    exact ⟨res, a', hrun, htakes⟩

/-- `free_frame` frees a frame of the allocator. -/
theorem freeFrame_ok {paddr : ℕ} (h : paddr / pageSize < a.frameCount) :
    ∃ a', a.freeFrame paddr = .ok a' ∧ Marked a a' (insert (paddr / pageSize) a.free) := by
  have hfits := a.fits
  unfold freeFrame
  rw [if_pos h]
  exact clearBit_ok (by omega)

end FrameAllocator

/-! ## `frame::init` -/

open FrameAllocator

/-- The frame lies in a usable region. -/
def UsableFrame (regions : List PhysRegion) (i : ℕ) : Prop :=
  ∃ r ∈ regions, r.kind = .usableRam ∧ r.start ≤ i * pageSize ∧ i * pageSize + pageSize ≤ r.stop

/-- The usable regions consist of whole pages. -/
def PageAligned (regions : List PhysRegion) : Prop :=
  ∀ r ∈ regions, r.kind = .usableRam → r.start % pageSize = 0 ∧ r.stop % pageSize = 0

/-- The end of the last usable region is the end of one, if there is one, and no usable region ends
after it. -/
theorem maxUsableEnd_spec (regions : List PhysRegion) :
    (maxUsableEnd regions = 0 ∨
      ∃ r ∈ regions, r.kind = .usableRam ∧ r.stop = maxUsableEnd regions) ∧
      ∀ r ∈ regions, r.kind = .usableRam → r.stop ≤ maxUsableEnd regions := by
  unfold maxUsableEnd
  induction regions using List.reverseRecOn with
  | nil => simp
  | append_singleton regions region ih =>
    obtain ⟨hmem, hle⟩ := ih
    rw [List.foldl_append, List.foldl_cons, List.foldl_nil]
    split_ifs with hmax
    · refine ⟨.inr ⟨region, by simp, hmax.1, rfl⟩, fun r hr hk => ?_⟩
      rcases List.mem_append.mp hr with hr | hr
      · exact (hle r hr hk).trans hmax.2.le
      · rw [List.mem_singleton.mp hr]
    · refine ⟨hmem.imp_right fun ⟨r, hr, h⟩ => ⟨r, List.mem_append_left _ hr, h⟩,
        fun r hr hk => ?_⟩
      rcases List.mem_append.mp hr with hr | hr
      · exact hle r hr hk
      · rw [List.mem_singleton.mp hr] at hk ⊢
        exact Nat.not_lt.mp fun h => hmax ⟨hk, h⟩

/-- The frame of a usable region of whole pages, by its number. -/
theorem usableFrame_iff {regions : List PhysRegion} (h : PageAligned regions) {i : ℕ} :
    UsableFrame regions i ↔ ∃ r ∈ regions, r.kind = .usableRam ∧ r.start / pageSize ≤ i ∧
      i < r.stop / pageSize := by
  have key : ∀ r ∈ regions, r.kind = .usableRam →
      (r.start ≤ i * pageSize ∧ i * pageSize + pageSize ≤ r.stop ↔
        r.start / pageSize ≤ i ∧ i < r.stop / pageSize) := by
    intro r hr hk
    have halign := h r hr hk
    unfold pageSize at *
    omega
  constructor
  · rintro ⟨r, hr, hk, hrange⟩
    exact ⟨r, hr, hk, (key r hr hk).mp hrange⟩
  · rintro ⟨r, hr, hk, hrange⟩
    exact ⟨r, hr, hk, (key r hr hk).mpr hrange⟩

/-- The loop over the regions frees the usable frames. -/
theorem markRegions_ok {regions : List PhysRegion} {a : FrameAllocator}
    (h : ∀ r ∈ regions, r.kind = .usableRam → r.stop / pageSize ≤ 64 * a.bitmap.length) :
    ∃ a', regions.foldlM (fun alloc region =>
        if region.kind ≠ .usableRam then return alloc
        else alloc.markFree region.start region.stop) a = .ok a' ∧ Marked a a' a'.free ∧
      ∀ i, i ∈ a'.free ↔ i ∈ a.free ∨ ∃ r ∈ regions, r.kind = .usableRam ∧
        r.start / pageSize ≤ i ∧ i < r.stop / pageSize := by
  induction regions generalizing a with
  | nil => exact ⟨a, rfl, Marked.refl a, by simp⟩
  | cons r rest ih =>
    by_cases hk : r.kind = .usableRam
    · obtain ⟨a₁, ha₁, hmark⟩ := markFree_ok r.start (h r (by simp) hk)
      obtain ⟨a', ha', hmark', hfree⟩ := ih (a := a₁) fun s hs hks => by
        rw [hmark.length]
        exact h s (List.mem_cons_of_mem _ hs) hks
      refine ⟨a', ?_, hmark.trans hmark', fun i => ?_⟩
      · rw [List.foldlM_cons, if_neg (not_not.mpr hk), ha₁, Exec.ok_bind]
        exact ha'
      · rw [hfree, hmark.free_eq, Finset.mem_union, Finset.mem_Ico, or_assoc]
        simp [hk]
    · obtain ⟨a', ha', hmark', hfree⟩ :=
        ih (a := a) fun s hs => h s (List.mem_cons_of_mem _ hs)
      refine ⟨a', ?_, hmark', fun i => ?_⟩
      · rw [List.foldlM_cons, if_pos hk, Exec.pure_eq, Exec.ok_bind]
        exact ha'
      · rw [hfree]
        simp [hk]

/-- The bits after `frame::init`. -/
theorem markAll_ok {regions : List PhysRegion} {a : FrameAllocator} {boot : BootAlloc}
    (hfree : a.free = ∅)
    (hstop : ∀ r ∈ regions, r.kind = .usableRam → r.stop / pageSize ≤ a.frameCount)
    (hused : alignUp boot.current pageSize / pageSize ≤ a.frameCount) :
    ∃ a', a.markAll regions boot = .ok a' ∧ Marked a a' a'.free ∧
      ∀ i, i ∈ a'.free ↔ (∃ r ∈ regions, r.kind = .usableRam ∧
        r.start / pageSize ≤ i ∧ i < r.stop / pageSize) ∧
        ¬ (boot.start / pageSize ≤ i ∧ i < alignUp boot.current pageSize / pageSize) := by
  have hfits := a.fits
  obtain ⟨a₁, ha₁, hmark₁, hfree₁⟩ :=
    markRegions_ok (a := a) fun r hr hk => (hstop r hr hk).trans hfits
  have hused₁ : alignUp boot.current pageSize / pageSize ≤ 64 * a₁.bitmap.length := by
    rw [hmark₁.length]
    exact hused.trans hfits
  obtain ⟨a₂, ha₂, hmark₂⟩ := markUsed_ok boot.start hused₁
  have hmark := hmark₁.trans hmark₂
  refine ⟨a₂, ?_, ⟨hmark.count, hmark.paddr, hmark.length, rfl⟩, fun i => ?_⟩
  · rw [markAll, ha₁, Exec.ok_bind]
    exact ha₂
  · rw [hmark₂.free_eq, Finset.mem_sdiff, Finset.mem_Ico, hfree₁, hfree]
    simp only [Finset.notMem_empty, false_or]

section AllUsed

variable {frameCount bitmapPaddr : ℕ} {h : frameCount ≤ 2^52}

@[simp] theorem allUsed_frameCount : (allUsed frameCount bitmapPaddr h).frameCount = frameCount :=
  rfl

@[simp] theorem allUsed_bitmapPaddr :
    (allUsed frameCount bitmapPaddr h).bitmapPaddr = bitmapPaddr := rfl

@[simp] theorem allUsed_length :
    (allUsed frameCount bitmapPaddr h).bitmap.length = (frameCount + 63) / 64 :=
  List.length_replicate

@[simp] theorem allUsed_free : (allUsed frameCount bitmapPaddr h).free = ∅ :=
  Bitmap.zeros_replicate _

end AllUsed

/-- What `bootalloc::alloc` returns lies at the end of the used range, and ends where the boot range
ends or before. -/
theorem BootAlloc.alloc_some {b b' : BootAlloc} {size align p : ℕ} (hstop : b.stop < 2^64 - 1)
    (h : b.alloc size align = (some p, b')) :
    p = alignUp b.current (max align 1) ∧ p ≠ 0 ∧ b'.start = b.start ∧ b'.stop = b.stop ∧
      b'.current = p + size ∧ b'.current ≤ b.stop := by
  unfold BootAlloc.alloc at h
  dsimp only at h
  split at h
  · cases h
  · rename_i hnot
    rw [not_or] at hnot
    cases h
    refine ⟨rfl, hnot.1, rfl, rfl, ?_, ?_⟩
    · show min _ _ = _
      omega
    · show min _ _ ≤ _
      omega

/-- An allocation that fails changes nothing. -/
theorem BootAlloc.alloc_none {b b' : BootAlloc} {size align : ℕ}
    (h : b.alloc size align = (none, b')) : b' = b := by
  unfold BootAlloc.alloc at h
  dsimp only at h
  split at h
  · cases h
    rfl
  · cases h

/-- The allocator that `frame::init` leaves behind. -/
structure InitSpec (regions : List PhysRegion) (boot : BootAlloc) (alloc : Option FrameAllocator) :
    Prop where
  valid : ∀ a, alloc = some a → a.Valid
  /-- The free frames are the usable ones that the boot allocator has not used. -/
  free : ∀ a, alloc = some a → ∀ i, i ∈ a.free ↔ UsableFrame regions i ∧
    ¬ (boot.start / pageSize ≤ i ∧ i < alignUp boot.current pageSize / pageSize)
  /-- The bitmap lies in what the boot allocator has used. -/
  storage : ∀ a, alloc = some a →
    a.bitmapPaddr + 8 * a.bitmap.length = boot.current ∧ boot.current ≤ boot.stop

/-- The number of frames, when the end of usable RAM is a page boundary. -/
theorem initFrameCount_eq {map : NormalizedMap} (halign : PageAligned map.regions)
    (h : maxUsableEnd map.regions ≠ 0) :
    maxUsableEnd map.regions ≤ 2^64 - 4096 ∧
      maxUsableEnd map.regions = initFrameCount map.regions * pageSize := by
  obtain ⟨r, hr, hk, hmax⟩ := (maxUsableEnd_spec map.regions).1.resolve_left h
  have hpage := (halign r hr hk).2
  have hlt := (map.bounded r hr).2
  rw [hmax] at hpage hlt
  unfold initFrameCount
  rw [alignUp_page_of_dvd hlt hpage]
  unfold pageSize at *
  omega

/-- `frame::init` frees only frames of usable regions, whatever the boot range is. -/
theorem frameInit_free {map : NormalizedMap} {boot boot' : BootAlloc} {a : FrameAllocator}
    (hstop : ∀ r ∈ map.regions, r.kind = .usableRam → r.stop ≤ 2^64 - 4096)
    (h : frameInit map boot = .ok (some a, boot')) {i : ℕ} (hi : i ∈ a.free) :
    ∃ r ∈ map.regions, r.kind = .usableRam ∧ r.start / pageSize ≤ i ∧ i < r.stop / pageSize := by
  have hle := (maxUsableEnd_spec map.regions).2
  have hmax : maxUsableEnd map.regions ≤ 2^64 - 4096 := by
    rcases (maxUsableEnd_spec map.regions).1 with hzero | ⟨r, hr, hk, hstop'⟩
    · rw [hzero]
      exact Nat.zero_le _
    · rw [← hstop']
      exact hstop r hr hk
  -- The bitmap has a bit for each frame up to the end of the last usable region.
  have hcount : ∀ n ≤ maxUsableEnd map.regions,
      n / pageSize ≤ initFrameCount map.regions := by
    intro n hn
    unfold initFrameCount
    rw [alignUp_page hmax]
    unfold pageSize
    omega
  unfold frameInit at h
  split at h
  · cases h
  split at h
  · cases h
  rename_i p boot₁ halloc
  obtain ⟨b, hb, heq⟩ := Exec.bind_eq_ok.mp h
  cases heq
  obtain ⟨b₁, hb₁, hused⟩ := Exec.bind_eq_ok.mp hb
  have hfits : ∀ r ∈ map.regions, r.kind = .usableRam → r.stop / pageSize ≤
      64 * (allUsed (initFrameCount map.regions) p (initFrameCount_le _)).bitmap.length := by
    intro r hr hk
    have hdiv := hcount r.stop (hle r hr hk)
    rw [allUsed_length]
    omega
  obtain ⟨b₂, hb₂, -, hfree⟩ := markRegions_ok hfits
  rw [hb₁] at hb₂
  cases hb₂
  have hmem := (hfree i).mp (markUsed_subset hused hi)
  rw [allUsed_free] at hmem
  exact hmem.resolve_left (Finset.notMem_empty i)

/-- `frame::init` never stops, on a boot range that ends no later than some usable region. -/
theorem frameInit_spec {map : NormalizedMap} {boot : BootAlloc} (halign : PageAligned map.regions)
    (hboot : ∃ r ∈ map.regions, r.kind = .usableRam ∧ boot.stop ≤ r.stop) :
    ∃ alloc boot', frameInit map boot = .ok (alloc, boot') ∧
      InitSpec map.regions boot' alloc ∧ boot'.start = boot.start ∧ boot'.stop = boot.stop ∧
      ∀ a, alloc = some a → a.bitmapPaddr = alignUp boot.current 8 := by
  have hle := (maxUsableEnd_spec map.regions).2
  obtain ⟨r₀, hr₀, hk₀, hstop₀⟩ := hboot
  by_cases hzero : maxUsableEnd map.regions = 0
  · refine ⟨none, boot, ?_, ⟨nofun, nofun, nofun⟩, rfl, rfl, nofun⟩
    rw [frameInit, if_pos hzero]
  rw [frameInit, if_neg hzero]
  obtain ⟨hlt, hcount⟩ := initFrameCount_eq halign hzero
  have hstop : boot.stop ≤ maxUsableEnd map.regions := hstop₀.trans (hle r₀ hr₀ hk₀)
  have hdiv : ∀ {n}, n ≤ maxUsableEnd map.regions → n / pageSize ≤ initFrameCount map.regions := by
    intro n hn
    unfold pageSize at *
    omega
  split
  · rename_i boot' halloc
    rw [BootAlloc.alloc_none halloc]
    exact ⟨none, boot, rfl, ⟨nofun, nofun, nofun⟩, rfl, rfl, nofun⟩
  rename_i p boot' halloc
  obtain ⟨hp, -, hstart', hstop', hcur, hcurle⟩ := BootAlloc.alloc_some (by omega) halloc
  -- What the boot allocator has used ends in a usable region, rounded up to a page too.
  have hround : alignUp boot'.current pageSize ≤ maxUsableEnd map.regions := by
    rw [alignUp_page (by omega)]
    unfold pageSize at hcount
    omega
  obtain ⟨a', ha', hmark, hfree⟩ := markAll_ok
    (a := allUsed (initFrameCount map.regions) p (initFrameCount_le _)) allUsed_free
    (fun r hr hk => hdiv (hle r hr hk)) (hdiv hround)
  refine ⟨some a', boot', ?_, ⟨?_, ?_, ?_⟩, hstart', hstop', ?_⟩
  · rw [ha', Exec.ok_bind, Exec.pure_eq]
  · rintro a ⟨⟩ i hi
    obtain ⟨⟨r, hr, hk, -, hi⟩, -⟩ := (hfree i).mp hi
    rw [hmark.count, allUsed_frameCount]
    exact hi.trans_le (hdiv (hle r hr hk))
  · rintro a ⟨⟩ i
    rw [hfree, usableFrame_iff halign]
  · rintro a ⟨⟩
    rw [hmark.paddr, allUsed_bitmapPaddr, hmark.length, allUsed_length, hcur]
    exact ⟨by omega, by omega⟩
  · rintro a ⟨⟩
    rw [hmark.paddr, allUsed_bitmapPaddr, hp]
    rfl

/-- The boot allocator has used the bitmap's storage, and nothing after it. -/
theorem frameInit_current {map : NormalizedMap} {boot boot' : BootAlloc} {a : FrameAllocator}
    (h : frameInit map boot = .ok (some a, boot')) : boot'.start = boot.start ∧
      boot'.current ≤ alignUp boot.current 8 + (initFrameCount map.regions + 63) / 64 * 8 := by
  unfold frameInit at h
  split at h
  · cases h
  split at h
  · cases h
  rename_i p boot₁ halloc
  obtain ⟨b, -, heq⟩ := Exec.bind_eq_ok.mp h
  cases heq
  unfold BootAlloc.alloc at halloc
  dsimp only at halloc
  split at halloc
  · cases halloc
  · cases halloc
    exact ⟨rfl, Nat.min_le_left _ _⟩

/-- A boot range with room for the bitmap gets an allocator. -/
theorem frameInit_isSome {map : NormalizedMap} {boot boot' : BootAlloc}
    {alloc : Option FrameAllocator} (hmax : maxUsableEnd map.regions ≠ 0)
    (hcur : alignUp boot.current 8 ≠ 0)
    (hroom : alignUp boot.current 8 + (initFrameCount map.regions + 63) / 64 * 8 ≤ boot.stop)
    (h : frameInit map boot = .ok (alloc, boot')) : alloc.isSome := by
  have halloc : boot.alloc ((initFrameCount map.regions + 63) / 64 * 8) 8 =
      (some (alignUp boot.current 8), { boot with
        current := min (alignUp boot.current 8 + (initFrameCount map.regions + 63) / 64 * 8)
          (2^64 - 1) }) := by
    have hle := Nat.min_le_left
      (alignUp boot.current 8 + (initFrameCount map.regions + 63) / 64 * 8) (2^64 - 1)
    unfold BootAlloc.alloc
    rw [show max 8 1 = 8 from rfl, if_neg]
    rintro (h | h)
    · exact hcur h
    · exact absurd (hle.trans hroom) (Nat.not_le.mpr h)
  rw [frameInit, if_neg hmax, halloc] at h
  obtain ⟨a, -, ha⟩ := Exec.bind_eq_ok.mp h
  cases ha
  rfl

end Ralix.Mm
