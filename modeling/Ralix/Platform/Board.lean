import Mathlib.Data.Nat.Notation

/-!
# Boards

The addresses of `src/platform/board.rs` that the memory code and the drivers use. The kernel is built
for one of two boards.
-/

namespace Ralix.Platform

/-- The board that the kernel is built for. -/
inductive Board where
  | rpi5
  | qemu
deriving DecidableEq, Repr

/-- `SOC_BASE` of `rpi5`. -/
def socBase : ℕ := 0x107c000000

/-- `SOC_MMIO_SIZE` of `rpi5`. -/
def socMmioSize : ℕ := 0x80000000

/-- `PERIPHERAL_BASE` of `qemu`. -/
def peripheralBase : ℕ := 0x3F000000

/-- `PERIPHERAL_SIZE` of `qemu`. -/
def peripheralSize : ℕ := 0x01000000

/-- `GPIO_BASE` of `qemu`. -/
def gpioBase : ℕ := peripheralBase + 0x00200000

/-- `MBOX_BASE`. -/
def mboxBase : Board → ℕ
  | .rpi5 => socBase + 0x7c013880
  | .qemu => peripheralBase + 0x0000B880

/-- `VC_MEM_BASE`. On `qemu`, it is the alias of RAM on the bus of the VC. -/
def vcMemBase : Board → UInt32
  | .rpi5 => 0x00000000
  | .qemu => 0x40000000

/-- `VC_MEM_MASK`. -/
def vcMemMask : Board → UInt32
  | .rpi5 => 0xFFFFFFFF
  | .qemu => 0x3FFFFFFF

/-- `QEMU_RAM_SIZE`. -/
def qemuRamSize : ℕ := 8 * 1024 * 1024 * 1024

end Ralix.Platform
