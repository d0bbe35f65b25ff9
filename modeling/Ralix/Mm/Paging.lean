import Mathlib.Logic.Function.Basic
import Ralix.Lib.Exec
import Ralix.Mm.Region
import Ralix.Platform.Board

/-!
# Page tables

`src/mm/paging.rs`. There are two sets of tables, for `TTBR1` (the kernel's, with physical memory
from `KERNEL_VIRT_BASE` on) and `TTBR0` (the user's, with physical memory at its own addresses).
Each has one L0 and one L1 table and a pool of L2 tables that are taken as they are needed, and maps
blocks of 2 MiB. `init` is a list of calls to `map_range_with`, in order: two for each region of the
memory map that is not MMIO, and two for each MMIO window.

A pointer to an L2 table is the address that its L1 entry holds. A dereference stops unless that is
the address of a table of the pool.

`walk` is what the MMU does with the tables: a walk of 4 KiB granules, with 48 bits of address.
-/

namespace Ralix.Mm

open Lib Platform

/-- The number of L2 tables in a pool. -/
def l2Tables : ℕ := 1024

/-- The size of a block. -/
def blockSize : ℕ := 0x200000

/-- The entry of the kernel's L0 table for `KERNEL_VIRT_BASE`. -/
def kernelL0Index : Fin 512 := ⟨kernelVirtBase >>> 39 &&& 0x1ff, by decide⟩

/-- `RP1_BASE` of `rpi5`. -/
def rp1Base : ℕ := 0x1c00000000

/-- `RP1_SIZE` of `rpi5`. -/
def rp1Size : ℕ := 0x40000000

def descBlock : ℕ := 0b01
def descTable : ℕ := 0b11
def afBit : ℕ := 1 <<< 10
def uxnBit : ℕ := 1 <<< 54
def pxnBit : ℕ := 1 <<< 53
def attrDevice : ℕ := 0
def attrNormal : ℕ := 1
def apEl1Rw : ℕ := 0b00
def apEl0Rw : ℕ := 0b01
def shNone : ℕ := 0b00
def shInner : ℕ := 0b11

/-- The entries of a table. -/
abbrev PageTable := Fin 512 → ℕ

/-- `table_desc`. -/
def tableDesc (pa : ℕ) : ℕ := (pa &&& 0x0000FFFFFFFFF000) ||| descTable

/-- `block_desc`. -/
def blockDesc (pa attr ap sh : ℕ) (xn : Bool) : ℕ :=
  let desc := descBlock
  let desc := desc ||| (attr &&& 0x7) <<< 2
  let desc := desc ||| (ap &&& 0x3) <<< 6
  let desc := desc ||| (sh &&& 0x3) <<< 8
  let desc := desc ||| afBit
  let desc := desc ||| (pa &&& 0x0000FFFFFFE00000)
  if xn then desc ||| (uxnBit ||| pxnBit) else desc

/-- Which set of tables: `TTBR1`'s or `TTBR0`'s. -/
inductive Root where
  | kernel
  | user
deriving DecidableEq, Repr

/-- Where the tables of a set are, as virtual addresses. They are statics of the kernel, so they lie
in its window on physical memory. -/
structure TableAddrs where
  l0 : ℕ
  l1 : ℕ
  pool : ℕ
  l0_aligned : l0 % 4096 = 0
  l1_aligned : l1 % 4096 = 0
  pool_aligned : pool % 4096 = 0
  l0_mem : kernelVirtBase ≤ l0 ∧ l0 < kernelVirtBase + 2^47
  l1_mem : kernelVirtBase ≤ l1 ∧ l1 < kernelVirtBase + 2^47
  pool_mem : kernelVirtBase ≤ pool ∧ pool + l2Tables * 4096 ≤ kernelVirtBase + 2^47

/-- The table of the pool at a virtual address. -/
def TableAddrs.poolIndex (s : TableAddrs) (va : ℕ) : Option (Fin l2Tables) :=
  if h : s.pool ≤ va ∧ (va - s.pool) % 4096 = 0 ∧ (va - s.pool) / 4096 < l2Tables then
    some ⟨(va - s.pool) / 4096, h.2.2⟩
  else none

/-- The virtual address of a table of the pool. -/
def TableAddrs.poolVa (s : TableAddrs) (k : Fin l2Tables) : ℕ := s.pool + k.val * 4096

/-- A set of tables, and the next unused table of the pool. -/
structure Tables where
  l0 : PageTable
  l1 : PageTable
  pool : Fin l2Tables → PageTable
  nextL2 : ℕ

/-- An index into a table: nine bits of an address. -/
def tableIndex (vaddr shift : ℕ) : Fin 512 :=
  ⟨vaddr >>> shift &&& 0x1ff, Nat.and_lt_two_pow (n := 9) _ (by decide)⟩

/-- `get_l2_table_with`: the table of the pool for an entry of the L1 table. Without an unused table
it waits forever. -/
def getL2TableWith (s : TableAddrs) (t : Tables) (l1Idx : Fin 512) :
    Exec (Fin l2Tables × Tables) :=
  if t.l1 l1Idx &&& 0b11 = descTable then
    let pa := t.l1 l1Idx &&& 0x0000FFFFFFFFF000
    let va := physToVirt pa
    match s.poolIndex va with
    | some k => .ok (k, t)
    | none => .error .pointer
  else
    if h : t.nextL2 < l2Tables then
      let idx : Fin l2Tables := ⟨t.nextL2, h⟩
      let pa := virtToPhys (s.poolVa idx)
      .ok (idx, { t with
        nextL2 := t.nextL2 + 1
        pool := Function.update t.pool idx fun _ => 0
        l1 := Function.update t.l1 l1Idx (tableDesc pa) })
    else .error .halt

/-- `map_block_with`, for the block descriptor that it writes. -/
def mapBlockWith (s : TableAddrs) (t : Tables) (vaddr desc : ℕ) : Exec Tables := do
  let l1Idx := tableIndex vaddr 30
  let l2Idx := tableIndex vaddr 21
  let (l2, t) ← getL2TableWith s t l1Idx
  return { t with pool := Function.update t.pool l2 (Function.update (t.pool l2) l2Idx desc) }

/-- A call of `map_range_with`. -/
structure MapCall where
  root : Root
  vstart : ℕ
  pstart : ℕ
  size : ℕ
  attr : ℕ
  ap : ℕ
  sh : ℕ
  xn : Bool
deriving DecidableEq, Repr

namespace MapCall

/-- The virtual address of the first block. -/
def vaddr (c : MapCall) : ℕ := alignDown c.vstart blockSize

/-- The number of blocks: the loop runs while `vaddr < end`, both multiples of the block size. -/
def blocks (c : MapCall) : ℕ :=
  if c.size = 0 then 0
  else (alignUp (wadd c.vstart c.size) blockSize - c.vaddr) / blockSize

/-- The descriptor of the block `i`. -/
def desc (c : MapCall) (i : ℕ) : ℕ :=
  blockDesc (wadd (alignDown c.pstart blockSize) (wmul i blockSize)) c.attr c.ap c.sh c.xn

/-- `map_range_with`. -/
def run (c : MapCall) (s : TableAddrs) (t : Tables) : Exec Tables :=
  Exec.forRange (fun i t => mapBlockWith s t (wadd c.vaddr (wmul i blockSize)) (c.desc i))
    0 c.blocks t

end MapCall

/-- The virtual address at which a set of tables has a physical address. -/
def Root.virt : Root → ℕ → ℕ
  | .kernel, a => physToVirt a
  | .user, a => a

/-- The end of what `init` maps of a region: on `rpi5`, 1 GiB of usable RAM at most. -/
def mappedEnd (board : Board) (region : PhysRegion) : ℕ :=
  match board with
  | .rpi5 =>
    if region.kind = .usableRam then
      let cap := min (region.start + 0x40000000) (2^64 - 1)
      if region.stop > cap then cap else region.stop
    else region.stop
  | .qemu => region.stop

/-- The call of `init` for a region and a set of tables. -/
def ramCall (board : Board) (region : PhysRegion) (root : Root) : MapCall where
  root := root
  vstart := root.virt region.start
  pstart := region.start
  size := mappedEnd board region - region.start
  attr := attrNormal
  ap := match root with
    | .kernel => apEl1Rw
    | .user => apEl0Rw
  sh := shInner
  xn := false

/-- The calls of `init` for a region. -/
def regionCalls (board : Board) (region : PhysRegion) : List MapCall :=
  if region.kind = .mmio then []
  else if mappedEnd board region - region.start = 0 then []
  else [ramCall board region .kernel, ramCall board region .user]

/-- A window of `map_mmio`. -/
structure Window where
  base : ℕ
  size : ℕ
  attr : ℕ
  sh : ℕ
deriving DecidableEq, Repr

/-- The call of `map_mmio` for a window and a set of tables. -/
def Window.call (w : Window) (root : Root) : MapCall where
  root := root
  vstart := root.virt w.base
  pstart := w.base
  size := w.size
  attr := w.attr
  ap := apEl1Rw
  sh := w.sh
  xn := true

/-- The board's windows. -/
def boardWindows : Board → List Window
  | .qemu => [
    ⟨peripheralBase, peripheralSize, attrDevice, shNone⟩,
    ⟨0x40000000, 0x00200000, attrDevice, shNone⟩,
    -- The VC's reserved RAM, with the frame buffer.
    ⟨0x3c000000, 0x04000000, attrNormal, shInner⟩]
  | .rpi5 => [
    ⟨socBase, socMmioSize, attrDevice, shNone⟩,
    ⟨rp1Base, rp1Size, attrDevice, shNone⟩]

/-- `EXTRA_MMIO_BASE` and `EXTRA_MMIO_SIZE`. -/
structure ExtraMmio where
  base : ℕ
  size : ℕ
  bounded : base < 2^64 ∧ size < 2^64

/-- The window that `set_extra_mmio` sets. -/
def ExtraMmio.window (extra : ExtraMmio) : Window := ⟨extra.base, extra.size, attrDevice, shNone⟩

/-- The windows of `map_mmio`, in order. -/
def windows (board : Board) (extra : ExtraMmio) : List Window :=
  boardWindows board ++ if extra.size ≠ 0 then [extra.window] else []

/-- The calls of `init`: those for the regions, and then those of `map_mmio`. -/
def pagingCalls (board : Board) (map : NormalizedMap) (extra : ExtraMmio) : List MapCall :=
  map.regions.flatMap (regionCalls board) ++
    (windows board extra).flatMap fun w => [w.call .user, w.call .kernel]

/-- The entry of the L0 table that `init` fills. -/
def l0Index : Root → Fin 512
  | .kernel => kernelL0Index
  | .user => 0

/-- A set of tables before anything is mapped. -/
def freshTables (s : TableAddrs) (root : Root) : Tables where
  l0 := Function.update (fun _ => 0) (l0Index root) (tableDesc (virtToPhys s.l1))
  l1 _ := 0
  pool _ _ := 0
  nextL2 := 0

/-- Runs calls of `map_range_with` in order. -/
def runCalls (s : Root → TableAddrs) (calls : List MapCall) (t : Root → Tables) :
    Exec (Root → Tables) :=
  calls.foldlM (fun t c => do
    let t' ← c.run (s c.root) (t c.root)
    return Function.update t c.root t') t

/-- `paging::init`. -/
def pagingInit (s : Root → TableAddrs) (board : Board) (map : NormalizedMap) (extra : ExtraMmio) :
    Exec (Root → Tables) :=
  runCalls s (pagingCalls board map extra) fun root => freshTables (s root) root

/-! ## The walk -/

/-- What a walk ends at: a physical address, and the descriptor that maps it. -/
structure Leaf where
  pa : ℕ
  desc : ℕ
deriving DecidableEq, Repr

/-- The memory attribute index of a descriptor. -/
def Leaf.attr (leaf : Leaf) : ℕ := leaf.desc >>> 2 &&& 0x7

/-- The access permissions of a descriptor. -/
def Leaf.ap (leaf : Leaf) : ℕ := leaf.desc >>> 6 &&& 0x3

/-- The bits of a descriptor that forbid execution, at EL0 and at EL1. -/
def Leaf.never (leaf : Leaf) : ℕ := leaf.desc &&& (uxnBit ||| pxnBit)

/-- The L2 step of a walk: a block, nothing, or an L3 table, of which there are none. -/
def walkL2 (table : PageTable) (va : ℕ) : Exec (Option Leaf) :=
  let entry := table (tableIndex va 21)
  if entry &&& 0b11 = descBlock then
    .ok (some ⟨(entry &&& 0x0000FFFFFFE00000) ||| (va &&& 0x1FFFFF), entry⟩)
  else if entry &&& 0b11 = descTable then .error .pointer
  else .ok none

/-- The L1 step of a walk: a block of 1 GiB, an L2 table, or nothing. -/
def walkL1 (s : TableAddrs) (t : Tables) (va : ℕ) : Exec (Option Leaf) :=
  let entry := t.l1 (tableIndex va 30)
  if entry &&& 0b11 = descBlock then
    .ok (some ⟨(entry &&& 0x0000FFFFC0000000) ||| (va &&& 0x3FFFFFFF), entry⟩)
  else if entry &&& 0b11 = descTable then
    match s.poolIndex (physToVirt (entry &&& 0x0000FFFFFFFFF000)) with
    | some k => walkL2 (t.pool k) va
    | none => .error .pointer
  else .ok none

/-- A walk of a set of tables. A table that an entry points to must be one of the set's. -/
def walk (s : TableAddrs) (t : Tables) (va : ℕ) : Exec (Option Leaf) :=
  let entry := t.l0 (tableIndex va 39)
  if entry &&& 0b11 = descTable then
    if physToVirt (entry &&& 0x0000FFFFFFFFF000) = s.l1 then walkL1 s t va else .error .pointer
  else .ok none

/-- The number of bits of the physical addresses that a set of tables has virtual addresses for. -/
def Root.bits : Root → ℕ
  | .kernel => 47
  | .user => 48

end Ralix.Mm
