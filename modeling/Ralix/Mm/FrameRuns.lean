import Ralix.Mm.FrameSpec

/-!
# Runs of the frame allocator

`alloc_frame`, `alloc_contiguous`, and `free_frame` on `FRAME_ALLOC`, in any order, from what
`frame::init` leaves there. `Frames.held` is what the callers have got and not given back. The free
frames and the held ones are always a partition of the frames that were free at first
(`FrameInv`), and the rest follows from that.
-/

namespace Ralix.Mm

open Lib FrameAllocator

/-- `FRAME_ALLOC`, and the frames that callers hold. -/
structure Frames where
  alloc : Option FrameAllocator
  held : Finset ℕ

/-- A call of the allocator's interface. -/
inductive FrameOp where
  | alloc
  | contiguous (pages : ℕ)
  | free (paddr : ℕ)

namespace FrameOp

/-- The frames that a call asks for. -/
def pages : FrameOp → ℕ
  | alloc => 1
  | contiguous pages => pages
  | free _ => 0

/-- Callers free only frames that are held. -/
def Allowed (held : Finset ℕ) : FrameOp → Prop
  | free paddr => paddr / pageSize ∈ held
  | _ => True

/-- The run of frames at a returned address. -/
def taken (pages : ℕ) : Option ℕ → Finset ℕ
  | some p => Finset.Ico (p / pageSize) (p / pageSize + pages)
  | none => ∅

/-- A call: what it returns, and what it leaves. Without an allocator, nothing is returned. -/
def run (op : FrameOp) (f : Frames) : Exec (Option ℕ × Frames) :=
  match f.alloc, op with
  | none, _ => .ok (none, f)
  | some a, .alloc => do
    let (res, a) ← a.allocFrame
    return (res, ⟨some a, f.held ∪ taken 1 res⟩)
  | some a, .contiguous pages => do
    let (res, a) ← a.allocContiguous pages
    return (res, ⟨some a, f.held ∪ taken pages res⟩)
  | some a, .free paddr => do
    let a ← a.freeFrame paddr
    return (none, ⟨some a, f.held.erase (paddr / pageSize)⟩)

end FrameOp

/-- The states of the runs from an allocator. -/
inductive FrameRun (initial : Option FrameAllocator) : Frames → Prop
  | init : FrameRun initial ⟨initial, ∅⟩
  | step {f f' : Frames} {op : FrameOp} {res : Option ℕ} :
      FrameRun initial f → op.Allowed f.held → op.run f = .ok (res, f') → FrameRun initial f'

/-- The free and the held frames are a partition of those that were free at first. -/
inductive FrameInv : Option FrameAllocator → Frames → Prop
  | absent : FrameInv none ⟨none, ∅⟩
  | present {a₀ a : FrameAllocator} {held : Finset ℕ} (marked : Marked a₀ a a.free)
      (valid : a₀.Valid) (disjoint : Disjoint a.free held) (union : a.free ∪ held = a₀.free) :
      FrameInv (some a₀) ⟨some a, held⟩

/-- A run of frames that is taken goes over to the held ones. -/
theorem FrameInv.take {a₀ a a' : FrameAllocator} {held : Finset ℕ} {pages : ℕ} {res : Option ℕ}
    (marked : Marked a₀ a a.free) (valid : a₀.Valid) (disjoint : Disjoint a.free held)
    (union : a.free ∪ held = a₀.free) (h : Takes a pages res a') :
    FrameInv (some a₀) ⟨some a', held ∪ FrameOp.taken pages res⟩ := by
  match res with
  | none =>
    obtain rfl : a' = a := h
    rw [FrameOp.taken, Finset.union_empty]
    exact .present marked valid disjoint union
  | some p =>
    obtain ⟨idx, hp, hsub, hmark⟩ := h
    have hidx : p / pageSize = idx := by
      rw [hp]
      exact Nat.mul_div_cancel _ (by decide)
    have hmark' := marked.trans hmark
    rw [FrameOp.taken, hidx]
    refine .present ⟨hmark'.count, hmark'.paddr, hmark'.length, rfl⟩ valid ?_ ?_
    · rw [hmark.free_eq, Finset.disjoint_union_right]
      exact ⟨disjoint.mono_left Finset.sdiff_subset, Finset.sdiff_disjoint⟩
    · rw [hmark.free_eq, ← union, Finset.union_comm held, ← Finset.union_assoc,
        Finset.sdiff_union_of_subset hsub]

/-- A held frame that is given back goes over to the free ones. -/
theorem FrameInv.give {a₀ a a' : FrameAllocator} {held : Finset ℕ} {i : ℕ}
    (marked : Marked a₀ a a.free) (valid : a₀.Valid) (disjoint : Disjoint a.free held)
    (union : a.free ∪ held = a₀.free) (hi : i ∈ held) (h : Marked a a' (insert i a.free)) :
    FrameInv (some a₀) ⟨some a', held.erase i⟩ := by
  have hmark := marked.trans h
  refine .present ⟨hmark.count, hmark.paddr, hmark.length, rfl⟩ valid ?_ ?_
  · rw [h.free_eq, Finset.disjoint_insert_left]
    exact ⟨Finset.notMem_erase i held, disjoint.mono_right (Finset.erase_subset i held)⟩
  · rw [h.free_eq, Finset.insert_union, ← Finset.union_insert, Finset.insert_erase hi, union]

/-- What a call does in a state with the invariant: it never stops, keeps the invariant, and returns
frames that were free. -/
theorem FrameInv.run {initial : Option FrameAllocator} {f : Frames} (h : FrameInv initial f)
    {op : FrameOp} (ha : op.Allowed f.held) :
    ∃ res f', op.run f = .ok (res, f') ∧ FrameInv initial f' ∧
      ∀ p, res = some p → ∃ idx a₀, p = idx * pageSize ∧ initial = some a₀ ∧
        ∀ i, idx ≤ i → i < idx + op.pages → i ∈ a₀.free ∧ i ∉ f.held := by
  cases h with
  | absent => exact ⟨none, _, rfl, .absent, nofun⟩
  | @present a₀ a held marked valid disjoint union =>
    -- A run of frames that was free was free at first, and is not held.
    have hfree : ∀ {pages res a'}, Takes a pages res a' → ∀ p, res = some p →
        ∃ idx a₁, p = idx * pageSize ∧ some a₀ = some a₁ ∧
          ∀ i, idx ≤ i → i < idx + pages → i ∈ a₁.free ∧ i ∉ held := by
      rintro pages _ a' htakes p rfl
      obtain ⟨idx, hp, hsub, -⟩ := htakes
      refine ⟨idx, a₀, hp, rfl, fun i hlo hhi => ?_⟩
      have hi : i ∈ a.free := hsub (Finset.mem_Ico.mpr ⟨hlo, hhi⟩)
      refine ⟨?_, Finset.disjoint_left.mp disjoint hi⟩
      rw [← union]
      exact Finset.mem_union_left _ hi
    have hvalid : a.Valid := by
      intro i hi
      rw [marked.count]
      refine valid i ?_
      rw [← union]
      exact Finset.mem_union_left _ hi
    match op, ha with
    | .alloc, _ =>
      obtain ⟨res, a', hrun, htakes, -⟩ := allocFrame_ok hvalid
      refine ⟨res, _, ?_, .take marked valid disjoint union htakes, hfree htakes⟩
      simp only [FrameOp.run, hrun, Exec.ok_bind, Exec.pure_eq]
    | .contiguous pages, _ =>
      obtain ⟨res, a', hrun, htakes⟩ := allocContiguous_ok a pages
      refine ⟨res, _, ?_, .take marked valid disjoint union htakes, hfree htakes⟩
      simp only [FrameOp.run, hrun, Exec.ok_bind, Exec.pure_eq]
    | .free paddr, ha =>
      have hlt : paddr / pageSize < a.frameCount := by
        rw [marked.count]
        refine valid _ ?_
        rw [← union]
        exact Finset.mem_union_right _ ha
      obtain ⟨a', hrun, hmark⟩ := freeFrame_ok hlt
      refine ⟨none, _, ?_, .give marked valid disjoint union ha hmark, nofun⟩
      simp only [FrameOp.run, hrun, Exec.ok_bind, Exec.pure_eq]

/-- The invariant holds at first. -/
theorem FrameInv.init {initial : Option FrameAllocator} (h : ∀ a, initial = some a → a.Valid) :
    FrameInv initial ⟨initial, ∅⟩ := by
  match initial with
  | none => exact .absent
  | some a =>
    exact .present (Marked.refl a) (h a rfl) (Finset.disjoint_empty_right _) (Finset.union_empty _)

/-- The invariant holds in every state that a run reaches. -/
theorem FrameRun.inv {initial : Option FrameAllocator} (hv : ∀ a, initial = some a → a.Valid)
    {f : Frames} (h : FrameRun initial f) : FrameInv initial f := by
  induction h with
  | init => exact FrameInv.init hv
  | step _ ha hs ih =>
    obtain ⟨res, f', hrun, hinv, -⟩ := ih.run ha
    rw [hrun] at hs
    cases hs
    exact hinv

/-- The number of clear bits. -/
def clearCount (alloc : Option FrameAllocator) : ℕ := (alloc.map fun a => a.free.card).getD 0

/-- No clear bit is lost, or made. -/
theorem FrameInv.card {initial : Option FrameAllocator} {f : Frames} (h : FrameInv initial f) :
    f.held.card + clearCount f.alloc = clearCount initial := by
  cases h with
  | absent => rfl
  | @present a₀ a held marked valid disjoint union =>
    show held.card + a.free.card = a₀.free.card
    rw [← union, Finset.card_union_of_disjoint disjoint, Nat.add_comm]

/-- With nothing held, the allocator is as it was at first. -/
theorem FrameInv.eq_of_held {initial : Option FrameAllocator} {f : Frames}
    (h : FrameInv initial f) (hf : f.held = ∅) : f.alloc = initial := by
  cases h with
  | absent => rfl
  | @present a₀ a held marked valid disjoint union =>
    have hheld : held = ∅ := hf
    rw [hheld, Finset.union_empty] at union
    exact congrArg some (marked.eq union.symm)

/-- What holds in a state of a run of the allocator that `frame::init` made of the regions. -/
structure Frames.Sound (regions : List PhysRegion) (boot : BootAlloc)
    (initial : Option FrameAllocator) (f : Frames) : Prop where
  /-- A call never stops on an index of the bitmap. The frames that it returns lie in usable
  regions, outside of what the boot allocator has used, and nobody holds them. -/
  call : ∀ op : FrameOp, op.Allowed f.held → ∃ res f', op.run f = .ok (res, f') ∧
    ∀ p, res = some p → ∃ idx, p = idx * pageSize ∧ ∀ i, idx ≤ i → i < idx + op.pages →
      UsableFrame regions i ∧ (∀ b, b / pageSize = i → ¬ (boot.start ≤ b ∧ b < boot.current)) ∧
        i ∉ f.held
  /-- The held frames and the clear bits are as many as the clear bits at first. -/
  card : f.held.card + clearCount f.alloc = clearCount initial
  /-- With nothing held, the bitmap is as it was at first. -/
  returned : f.held = ∅ → f.alloc = initial

/-- On a normalized map whose usable regions consist of whole pages, with a boot range inside one of
them, `frame::init` puts the bitmap into the boot range, and every run of the allocator is sound. -/
theorem frames_sound (map : NormalizedMap) (halign : PageAligned map.regions) (start stop : ℕ)
    (hboot : ∃ r ∈ map.regions, r.kind = .usableRam ∧ r.start ≤ start ∧ start ≤ stop ∧
      stop ≤ r.stop) :
    ∃ alloc boot, frameInit map (BootAlloc.init start stop) = .ok (alloc, boot) ∧
      (∀ a, alloc = some a →
        boot.start ≤ a.bitmapPaddr ∧ a.bitmapPaddr + 8 * a.bitmap.length ≤ boot.current) ∧
      ∀ f, FrameRun alloc f → f.Sound map.regions boot alloc := by
  obtain ⟨r, hr, hk, -, hle, hstop⟩ := hboot
  obtain ⟨alloc, boot, hinit, hspec, hstart', hstop', hpaddr⟩ :=
    frameInit_spec halign ⟨r, hr, hk, (BootAlloc.init_stop start stop).trans_le hstop⟩
  rw [BootAlloc.init_start] at hstart'
  rw [BootAlloc.init_stop] at hstop'
  simp only [BootAlloc.init_current] at hpaddr
  -- The boot range starts at a page boundary.
  have hr64 := map.bounded r hr
  have hpage := (halign r hr hk).2
  unfold pageSize at hpage
  have hround : alignUp start pageSize = (start + 4095) / 4096 * 4096 := alignUp_page (by omega)
  have hstart : boot.start = (start + 4095) / 4096 * 4096 := hstart'.trans hround
  refine ⟨alloc, boot, hinit, fun a ha => ?_, fun f hf => ?_⟩
  · refine ⟨?_, (hspec.storage a ha).1.le⟩
    have hb : boot.start ≤ 2^64 - 4096 := by omega
    rw [hpaddr a ha, ← hstart', show (8 : ℕ) = 2^3 by decide,
      alignUp_spec (by decide) (by omega)]
    omega
  · have hinv := hf.inv hspec.valid
    refine ⟨fun op ha => ?_, hinv.card, hinv.eq_of_held⟩
    obtain ⟨res, f', hrun, -, hres⟩ := hinv.run ha
    refine ⟨res, f', hrun, fun p hp => ?_⟩
    obtain ⟨idx, a₀, hidx, ha₀, hfree⟩ := hres p hp
    refine ⟨idx, hidx, fun i hlo hhi => ?_⟩
    obtain ⟨hmem, hheld⟩ := hfree i hlo hhi
    obtain ⟨husable, hused⟩ := (hspec.free a₀ ha₀ i).mp hmem
    refine ⟨husable, fun b hb hrange => hused ?_, hheld⟩
    have hcur := (hspec.storage a₀ ha₀).2
    have hup : alignUp boot.current pageSize = (boot.current + 4095) / 4096 * 4096 :=
      alignUp_page (by omega)
    rw [hup]
    unfold pageSize at *
    omega

/-- Four MiB of RAM. -/
def sampleMap : NormalizedMap := ⟨[⟨0, 0x400000, .usableRam⟩], by decide, by decide⟩

/-- `frames_sound` on four MiB of RAM, with the upper half as boot range. -/
theorem frames_sound_sample :
    ∃ alloc boot, frameInit sampleMap (BootAlloc.init 0x200000 0x400000) = .ok (alloc, boot) ∧
      (∀ a, alloc = some a →
        boot.start ≤ a.bitmapPaddr ∧ a.bitmapPaddr + 8 * a.bitmap.length ≤ boot.current) ∧
      ∀ f, FrameRun alloc f → f.Sound sampleMap.regions boot alloc :=
  frames_sound sampleMap (by unfold PageAligned; decide) 0x200000 0x400000
    ⟨⟨0, 0x400000, .usableRam⟩, by decide, by decide, by decide, by decide, by decide⟩

end Ralix.Mm
