import Ralix.Dtb.Blob
import Ralix.Mm.FrameRuns
import Ralix.Mm.RegionSpec
import Ralix.Platform.Board

/-!
# Memory initialization

`mm::init` of `src/mm/mod.rs`, up to `frame::init`. The calls of `add_region` that `dtb::parse` has
made come first. Then `mm::init` adds the boot image, the kernel, the boot stack, the DTB itself, and
the board's MMIO window, in that order, to the same map of 128 entries, and `add_region` drops what
does not fit. With no more than 124 ranges from the DTB everything of the kernel's fits but perhaps
the MMIO window, and the frame allocator keeps away from it. From 125 ranges on, the DTB and more
may be dropped.
-/

namespace Ralix.Mm

open Lib Extent Platform MemoryMap Dtb

/-- `KernelPhysInfo`: what the linker says about the image. -/
structure KernelPhysInfo where
  kernelStart : UInt64
  kernelEnd : UInt64
  stackStart : UInt64
  stackEnd : UInt64
  bootEnd : UInt64

/-- `u64::saturating_sub`. -/
def saturatingSub (a b : UInt64) : UInt64 := if a ≤ b then 0 else a - b

/-- The calls of `add_region` for the image, the stack, and the DTB. Without a DTB, `qemu` falls
back to a fixed amount of RAM. -/
def imageCalls (board : Board) (info : KernelPhysInfo) (dtbPa : UInt64) (dtb : Option DtbInfo) :
    List Call :=
  let bootStart := UInt64.ofNat kernelPhysBase
  (if info.bootEnd > bootStart then
    [⟨bootStart, saturatingSub info.bootEnd bootStart, .kernelImage⟩] else []) ++
  [⟨info.kernelStart, saturatingSub info.kernelEnd info.kernelStart, .kernelImage⟩,
    ⟨info.stackStart, saturatingSub info.stackEnd info.stackStart, .bootStack⟩] ++
  match dtb, board with
  | some dtb, _ => [⟨dtbPa, dtb.totalSize.toUInt64, .bootInfo⟩]
  | none, .qemu => [⟨0, UInt64.ofNat qemuRamSize, .usableRam⟩]
  | none, .rpi5 => []

/-- The call of `add_region` for the board's MMIO window. -/
def mmioCall : Board → Call
  | .qemu => ⟨UInt64.ofNat peripheralBase, UInt64.ofNat peripheralSize, .mmio⟩
  | .rpi5 => ⟨UInt64.ofNat socBase, UInt64.ofNat socMmioSize, .mmio⟩

/-- The end of a region, or zero. -/
def stopOr (r : Option PhysRegion) : ℕ :=
  match r with
  | some r => r.stop
  | none => 0

/-- The end of the range for the boot allocator: that of the usable region that contains
`boot_start`, or of the first usable region, or zero. -/
def bootRangeEnd (regions : List PhysRegion) (bootStart : ℕ) : ℕ :=
  let usable := regions.filter fun r => r.kind = .usableRam
  let bootEnd := stopOr (usable.find? fun r => r.start ≤ bootStart ∧ bootStart < r.stop)
  if bootEnd = 0 then stopOr usable.head? else bootEnd

/-- What the kernel boots with: the board, the image, and what `dtb::parse` returned and registered.
-/
structure Boot where
  board : Board
  info : KernelPhysInfo
  dtbPa : UInt64
  dtb : Option DtbInfo
  /-- The calls of `add_region` that `parse` has made. -/
  calls : List Call
  /-- `parse` registers memory and reserved ranges. -/
  kinds : ∀ c ∈ calls, c.kind = .usableRam ∨ c.kind = .reserved
  /-- A `parse` that returns nothing has registered nothing. -/
  missing : dtb = none → calls = []
  /-- No range reaches the last page of the address space. -/
  ends : ∀ c ∈ calls ++ imageCalls board info dtbPa dtb, c.start.toNat + c.size.toNat ≤ 2^64 - 4096

namespace Boot

/-- The memory map of `mm::init`. -/
def map (b : Boot) : MemoryMap :=
  (MemoryMap.new.addAll b.calls).addAll (imageCalls b.board b.info b.dtbPa b.dtb ++
    [mmioCall b.board])

/-- Where the boot allocator starts. -/
def bootStart (b : Boot) : ℕ := alignUp b.info.kernelEnd.toNat pageSize

/-- Where the boot allocator ends. -/
def bootEnd (b : Boot) : ℕ := bootRangeEnd b.map.normalize.regions b.bootStart

/-- `mm::init`, as far as the frame allocator: the value of `FRAME_ALLOC` after it. -/
def init (b : Boot) : Exec (Option FrameAllocator) :=
  if b.bootEnd = 0 then .ok none
  else do
    let (alloc, _) ← frameInit b.map.normalize (BootAlloc.init b.bootStart b.bootEnd)
    return alloc

/-- The number of non-empty ranges that `parse` registers. -/
def rangeCount (b : Boot) : ℕ := (b.calls.filter fun c => c.size ≠ 0).length

/-- The ranges that are not for allocation: the reserved ones of the DTB, the image, the stack, and
the DTB itself. -/
def protectedRegions (b : Boot) : List PhysRegion :=
  ((b.calls ++ imageCalls b.board b.info b.dtbPa b.dtb).filter
    fun c => c.kind ≠ .usableRam).map Call.region

/-- The frame allocator comes up, and no frame that it returns in any run overlaps a protected
range. -/
def Protects (b : Boot) : Prop :=
  ∃ alloc, b.init = .ok alloc ∧ ∀ f, FrameRun alloc f → ∀ op : FrameOp, op.Allowed f.held →
    ∀ p f', op.run f = .ok (some p, f') → ∀ a, p ≤ a → a < p + op.pages * pageSize →
      ∀ r ∈ b.protectedRegions, ¬ r.Contains a

end Boot

end Ralix.Mm
