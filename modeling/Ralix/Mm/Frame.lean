import Ralix.Lib.Bitmap
import Ralix.Lib.Exec
import Ralix.Mm.Region

/-!
# Boot allocation and frames

`src/mm/bootalloc.rs` and `src/mm/frame.rs`. The boot allocator is a pointer that moves up through a
range. `frame::init` takes the storage of a bitmap from it, one bit for each frame below the end of
usable RAM, clears the bits of the usable frames, and sets those of the range that the boot
allocator has used. A set bit is a frame in use. The accesses to the bitmap are checked, so a
function here stops where the source would panic on an index.
-/

namespace Ralix.Mm

open Lib

/-- `BOOT_START`, `BOOT_CURRENT`, and `BOOT_END`. -/
structure BootAlloc where
  start : ℕ
  current : ℕ
  stop : ℕ
deriving DecidableEq, Repr

namespace BootAlloc

/-- `bootalloc::init`. -/
def init (start stop : ℕ) : BootAlloc :=
  let aligned := alignUp start pageSize
  ⟨aligned, aligned, stop⟩

@[simp] theorem init_start (start stop : ℕ) : (init start stop).start = alignUp start pageSize := rfl

@[simp] theorem init_current (start stop : ℕ) :
    (init start stop).current = alignUp start pageSize := rfl

@[simp] theorem init_stop (start stop : ℕ) : (init start stop).stop = stop := rfl

/-- `bootalloc::alloc`. -/
def alloc (b : BootAlloc) (size align : ℕ) : Option ℕ × BootAlloc :=
  let align := max align 1
  let current := alignUp b.current align
  let next := min (current + size) (2^64 - 1)
  if current = 0 ∨ next > b.stop then (none, b) else (some current, { b with current := next })

/-- `bootalloc::used_range`. -/
def usedRange (b : BootAlloc) : ℕ × ℕ := (b.start, b.current)

end BootAlloc

@[ext] structure FrameAllocator where
  frameCount : ℕ
  /-- Where `bootalloc` put the bitmap. -/
  bitmapPaddr : ℕ
  bitmap : List (BitVec 64)
  /-- There is a bit for every frame. -/
  fits : frameCount ≤ 64 * bitmap.length
  /-- The frames lie in a 64-bit address space. -/
  count_le : frameCount ≤ 2^52

namespace FrameAllocator

/-- `test_bit`. -/
def testBit (a : FrameAllocator) (idx : ℕ) : Exec Bool := do
  let word ← index a.bitmap (idx / 64)
  return word &&& 1#64 <<< (idx % 64) != 0

/-- The allocator with word `word` of its bitmap replaced. -/
def setWord (a : FrameAllocator) (word : ℕ) (value : BitVec 64) : FrameAllocator :=
  { a with
    bitmap := a.bitmap.set word value
    fits := by rw [List.length_set]; exact a.fits }

/-- `set_bit`. -/
def setBit (a : FrameAllocator) (idx : ℕ) : Exec FrameAllocator := do
  let word ← index a.bitmap (idx / 64)
  return a.setWord (idx / 64) (Bitmap.setIn word (idx % 64))

/-- `clear_bit`. -/
def clearBit (a : FrameAllocator) (idx : ℕ) : Exec FrameAllocator := do
  let word ← index a.bitmap (idx / 64)
  return a.setWord (idx / 64) (Bitmap.clearIn word (idx % 64))

/-- `mark_free`. -/
def markFree (a : FrameAllocator) (start stop : ℕ) : Exec FrameAllocator :=
  let idx := start / pageSize
  let endIdx := stop / pageSize
  Exec.forRange (fun idx a => a.clearBit idx) idx (endIdx - idx) a

/-- `mark_used`. -/
def markUsed (a : FrameAllocator) (start stop : ℕ) : Exec FrameAllocator :=
  let idx := start / pageSize
  let endIdx := alignUp stop pageSize / pageSize
  Exec.forRange (fun idx a => a.setBit idx) idx (endIdx - idx) a

/-- The loop of `alloc_frame` from `idx`, with `n` frames left. -/
def frameLoop (a : FrameAllocator) : ℕ → ℕ → Exec (Option ℕ × FrameAllocator)
  | _, 0 => .ok (none, a)
  | idx, n + 1 => do
    if ! (← a.testBit idx) then
      let a ← a.setBit idx
      return (some (wmul idx pageSize), a)
    else a.frameLoop (idx + 1) n

/-- `alloc_frame`. -/
def allocFrame (a : FrameAllocator) : Exec (Option ℕ × FrameAllocator) :=
  a.frameLoop 0 a.frameCount

/-- The inner loop of `alloc_contiguous`: whether the `n` bits from `check` are all clear. -/
def checkLoop (a : FrameAllocator) : ℕ → ℕ → Exec Bool
  | _, 0 => .ok true
  | check, n + 1 => do
    if ← a.testBit check then return false
    else a.checkLoop (check + 1) n

/-- The outer loop of `alloc_contiguous` from `idx`, with `n` places left. -/
def contiguousLoop (a : FrameAllocator) (pages : ℕ) : ℕ → ℕ → Exec (Option ℕ × FrameAllocator)
  | _, 0 => .ok (none, a)
  | idx, n + 1 => do
    if ← a.checkLoop idx pages then
      let a ← Exec.forRange (fun bit a => a.setBit bit) idx pages a
      return (some (wmul idx pageSize), a)
    else a.contiguousLoop pages (idx + 1) n

/-- `alloc_contiguous`. The loop goes on while `idx + pages <= self.frame_count`. The sum does not
wrap: it is `pages` at first, and the loop is over once it passes the number of frames. -/
def allocContiguous (a : FrameAllocator) (pages : ℕ) : Exec (Option ℕ × FrameAllocator) :=
  if pages = 0 then .ok (none, a)
  else a.contiguousLoop pages 0 (a.frameCount + 1 - pages)

/-- `free_frame`. -/
def freeFrame (a : FrameAllocator) (paddr : ℕ) : Exec FrameAllocator :=
  let idx := paddr / pageSize
  if idx < a.frameCount then a.clearBit idx else .ok a

end FrameAllocator

/-- The end of the last usable region. -/
def maxUsableEnd (regions : List PhysRegion) : ℕ :=
  regions.foldl (fun maxEnd region =>
    if region.kind = .usableRam ∧ region.stop > maxEnd then region.stop else maxEnd) 0

/-- The number of frames that `frame::init` manages: those below the end of usable RAM. -/
def initFrameCount (regions : List PhysRegion) : ℕ :=
  alignUp (maxUsableEnd regions) pageSize / pageSize

/-- The number of frames is that of a 64-bit address space at most. -/
theorem initFrameCount_le (regions : List PhysRegion) : initFrameCount regions ≤ 2^52 := by
  have hlt : alignUp (maxUsableEnd regions) pageSize < 2^64 :=
    Nat.and_le_left.trans_lt (wsub_lt _ _)
  unfold initFrameCount
  unfold pageSize at *
  omega

/-- An allocator with all frames in use. -/
def FrameAllocator.allUsed (frameCount bitmapPaddr : ℕ) (h : frameCount ≤ 2^52) :
    FrameAllocator where
  frameCount := frameCount
  bitmapPaddr := bitmapPaddr
  bitmap := List.replicate ((frameCount + 63) / 64) (BitVec.allOnes 64)
  fits := by
    rw [List.length_replicate]
    omega
  count_le := h

/-- What `frame::init` does to the bits: it clears those of the usable frames, and sets those of the
frames that the boot allocator has used. -/
def FrameAllocator.markAll (alloc : FrameAllocator) (regions : List PhysRegion)
    (boot : BootAlloc) : Exec FrameAllocator := do
  let alloc ← regions.foldlM (fun alloc region =>
    if region.kind ≠ .usableRam then return alloc
    else alloc.markFree region.start region.stop) alloc
  alloc.markUsed boot.usedRange.1 boot.usedRange.2

/-- `frame::init`: the value of `FRAME_ALLOC` after it, and the boot allocator. The bitmap has
`(bits + 63) / 64` words of 8 bytes. -/
def frameInit (map : NormalizedMap) (boot : BootAlloc) :
    Exec (Option FrameAllocator × BootAlloc) :=
  if maxUsableEnd map.regions = 0 then .ok (none, boot)
  else
    match boot.alloc ((initFrameCount map.regions + 63) / 64 * 8) 8 with
    | (none, boot) => .ok (none, boot)
    | (some bitmapPaddr, boot) => do
      let alloc ← (FrameAllocator.allUsed (initFrameCount map.regions) bitmapPaddr
        (initFrameCount_le map.regions)).markAll map.regions boot
      return (some alloc, boot)

end Ralix.Mm
