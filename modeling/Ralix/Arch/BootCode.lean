import Ralix.Arch.BootTables
import Ralix.Lib.Assembly

/-!
# The code of `boot.S`

`src/arch/aarch64/boot.S` as a program, block by block in the order of the source. `bootText` has a
block for each label, and `BootImage` has what `linker.ld` says of the symbols. A literal is loaded as a
constant, and stores to the UART are all that goes to a device. The code itself is apart from
the memory that it writes.
-/

namespace Ralix.Arch.BootAsm

open Lib Lib.Assembly Mm

/-- The symbols of `boot.S`: its labels in order, and those that it imports. -/
inductive BootSym where
  | start | el3ToEl1 | el2ToEl1 | el1Start
  /-- `1:`, where a core waits -/
  | wait
  /-- `3:`, its `wfe` -/
  | sleep
  /-- `2:`, where CPU 0 goes on -/
  | primary
  /-- `3:`, the loop over `BSS` -/
  | bss
  /-- `4:` -/
  | bssDone
  | halt
  | secondaryStart | secondaryEl3ToEl1 | secondaryEl2ToEl1 | secondaryEl1Setup | secondaryHalt
  | bootEnableMmu
  /-- `1:` to `3:`, the loops that zero a table -/
  | zeroL0 | zeroL1 | zeroL2
  /-- `4:` and `5:`, the loop over the first GiB -/
  | fillL2 | storeL2
  /-- `6:`, the loop over the RP1 -/
  | fillRp1
  | kernelVirtBase | secondaryTable | secondaryStacks | stackEndPhys | bssStartPhys | bssEndPhys
  | stackEnd | vectorTable | kernelMain | secondaryRustEntry
  | bootL0 | bootL1 | bootL2 | bootL2Rp1
deriving DecidableEq

/-- Instructions of `boot.S`. -/
abbrev BootCode := List (Instr BootSym)

/-- The code that leaves EL3 and EL2. -/
def descend (el3 el2 el1 : BootSym) : BootCode :=
  [.mrs .x0 .currentEl, .alu .lsr .x0 .x0 (.imm 2), .cmp .x0 (.imm 3), .bc .eq el3,
    .cmp .x0 (.imm 2), .bc .eq el2, .b el1]

/-- `el3_to_el1` and `secondary_el3_to_el1`. -/
def fromEl3 (el1 : BootSym) : BootCode :=
  [.mov .x1 (.imm 0x401), .msr .scrEl3 (.x .x1), .msr .cptrEl3 .xzr, .mov .x1 (.imm 3),
    .msr .cnthctlEl2 (.x .x1), .msr .cntvoffEl2 .xzr, .mov .x1 (.imm 0x3C5), .msr .spsrEl3 (.x .x1),
    .addr .x1 el1, .msr .elrEl3 (.x .x1)]

/-- `el2_to_el1` and `secondary_el2_to_el1`. -/
def fromEl2 (el1 : BootSym) : BootCode :=
  [.mov .x1 (.imm 3), .msr .cnthctlEl2 (.x .x1), .msr .cntvoffEl2 .xzr, .msr .cptrEl2 .xzr,
    .mov .x1 (.imm 0x80000000), .msr .hcrEl2 (.x .x1), .mov .x1 (.imm 0x3C5), .msr .spsrEl2 (.x .x1),
    .addr .x1 el1, .msr .elrEl2 (.x .x1)]

/-- `SCTLR` is written, from `x0`. -/
def sctlrCode : BootCode := [.msr .sctlrEl1 (.x .x0)]

/-- `el1_start`, up to the branch of CPU 0. -/
def plainCode : BootCode :=
  [.mrs .x0 .sctlrEl1, .alu .bic .x0 .x0 (.imm 0x1), .alu .bic .x0 .x0 (.imm 0x4),
    .alu .bic .x0 .x0 (.imm 0x1000)]
def el1StartCode : BootCode :=
  [.isb, .mov .x1 (.imm 0x300000), .msr .cpacrEl1 (.x .x1), .isb, .mov .x1 (.imm 1),
    .msr .spsel (.x .x1), .mrs .x0 .mpidrEl1, .alu .and .x0 .x0 (.imm 3)]

/-- A line with a character to the UART, by way of a register. -/
def mark (r : Gpr) (c : BitVec 64) : BootCode :=
  [.mov r (.imm c), .strw r .x21, .mov r (.imm 13), .strw r .x21, .mov r (.imm 10), .strw r .x21]

/-- The stack of CPU 0, up to the mark. -/
def primaryCode : BootCode :=
  [.addr .x1 .stackEndPhys, .movSp .x1, .mov .x21 (.imm 0x1c00030000)]

/-- A loop over the words of a table that zeroes them. -/
def zeroLoop (l : BootSym) : BootCode :=
  [.strPost (.x .x1) .x0, .subs .x2 .x2 (.imm 1), .bc .ne l]

/-- The entry 0 of a table, which points to another. -/
def linkCode (t t' : BootSym) : BootCode :=
  [.addr .x0 t, .addr .x1 t', .alu .orr .x2 .x1 (.imm 3), .str (.x .x2) .x0]

/-- The entry of the kernel's window, and that of the window of the RP1. -/
def aliasCode : BootCode := [.mov .x3 (.imm 256), .strIdx (.x .x2) .x0 .x3]
def rp1Link : BootCode :=
  [.addr .x1 .bootL2Rp1, .alu .orr .x2 .x1 (.imm 3), .mov .x3 (.imm 0x70), .strIdx (.x .x2) .x0 .x3]

/-- `MAIR`, `TCR` and the roots, and `SCTLR` without the bits of the MMU and the caches. -/
def regimeCode : BootCode :=
  [.mov .x0 (.imm 0xff), .alu .lsl .x0 .x0 (.imm 8), .msr .mairEl1 (.x .x0), .mov .x0 (.imm 16),
    .alu .orr .x0 .x0 (.imm 0x100000), .alu .orr .x0 .x0 (.imm 0x100),
    .alu .orr .x0 .x0 (.imm 0x400), .alu .orr .x0 .x0 (.imm 0x3000),
    .alu .orr .x0 .x0 (.imm 0x1000000), .alu .orr .x0 .x0 (.imm 0x4000000),
    -- the field is 2, which is 4 KiB for `TTBR1`, and not 64 KiB as the source has it in a comment
    .alu .orr .x0 .x0 (.imm 0x30000000), .alu .orr .x0 .x0 (.imm 0x80000000),
    .alu .orr .x0 .x0 (.imm 0x200000000), .msr .tcrEl1 (.x .x0), .isb, .addr .x1 .bootL0,
    .msr .ttbr0El1 (.x .x1), .msr .ttbr1El1 (.x .x1), .dsb, .isb, .mrs .x0 .sctlrEl1,
    .alu .bic .x0 .x0 (.imm 0x1), .alu .bic .x0 .x0 (.imm 0x4), .alu .bic .x0 .x0 (.imm 0x1000)]

/-- The bit of the MMU. -/
def mmuBitCode : BootCode := [.isb, .alu .orr .x0 .x0 (.imm 1)]

/-- The rest of a core's setup once the MMU is on. -/
def secondaryCode : BootCode :=
  [.addr .x1 .vectorTable, .msr .vbarEl1 (.x .x1), .isb, .addr .x1 .secondaryStacks,
    .mov .x2 (.imm 0x4000), .alu .mul .x4 .x19 (.x .x2), .alu .add .x1 .x1 (.x .x4), .addSp .x1 .x2,
    .addr .x1 .secondaryRustEntry]

/-- `secondary_el1_setup`, up to the call. -/
def setupCode : BootCode :=
  [.mov .x1 (.imm 0x300000), .msr .cpacrEl1 (.x .x1), .isb, .mov .x1 (.imm 1), .msr .spsel (.x .x1),
    .mrs .x0 .mpidrEl1, .alu .and .x0 .x0 (.imm 3), .mov .x19 (.x .x0), .addr .x3 .kernelVirtBase,
    .addr .x1 .secondaryStacks, .alu .sub .x1 .x1 (.x .x3), .mov .x2 (.imm 0x4000),
    .alu .mul .x4 .x19 (.x .x2), .alu .add .x1 .x1 (.x .x4), .addSp .x1 .x2]

/-- A core that waits reads its entry of `SECONDARY_TABLE`. -/
def waitCode : BootCode :=
  [.addr .x3 .kernelVirtBase, .addr .x1 .secondaryTable, .alu .sub .x1 .x1 (.x .x3),
    .ldr .x2 .x1 .x0]

/-- The branch to `boot_enable_mmu`. -/
def callMmu : BootCode := [.bl .bootEnableMmu]

/-- CPU 0 once the MMU is on: the vectors, the stack in the kernel's window, and the argument. -/
def vectorsCode : BootCode := [.addr .x1 .vectorTable, .msr .vbarEl1 (.x .x1), .isb]
def stackCode : BootCode := [.addr .x1 .stackEnd, .movSp .x1]
def argCode : BootCode := [.mov .x0 (.x .x20)]
def mainCode : BootCode := [.addr .x1 .kernelMain]

/-- CPU 0 once the MMU is on, up to the branch. -/
def mappedCode : BootCode :=
  mark .x1 109 ++ (vectorsCode ++ (mark .x1 118 ++ (stackCode ++ (mark .x1 115 ++ (argCode ++
    (mark .x2 107 ++ mainCode))))))

/-- A branch to the address in `x1`. -/
def brX1 : BootCode := [.br .x1]

/-- An exception return. -/
def eretCode : BootCode := [.eret]

def startCode : BootCode := [.movw .x20 .x0]
def toPrimary : BootCode := [.cbz .x0 .primary]
def bssRange : BootCode := [.addr .x1 .bssStartPhys, .addr .x2 .bssEndPhys]

/-- The loop over the first GiB, in three parts. -/
def fillHead : BootCode :=
  [.alu .lsl .x5 .x3 (.imm 21), .mov .x6 (.imm 0x705), .cmp .x3 (.imm 0x1F8)]
def fillBranch : BootCode := [.bc .lt .storeL2]
def fillDevice : BootCode := [.mov .x6 (.imm 0x401)]
def fillTail : BootCode :=
  [.alu .orr .x6 .x6 (.x .x5), .strPost (.x .x6) .x0, .alu .add .x3 .x3 (.imm 1),
    .subs .x4 .x4 (.imm 1)]
def fillAgain : BootCode := [.bc .ne .fillL2]

/-- The start of the loop over the RP1. -/
def rp1Head : BootCode :=
  [.addr .x0 .bootL2Rp1, .mov .x3 (.imm 0), .mov .x4 (.imm 512), .mov .x7 (.imm 0x1c),
    .alu .lsl .x7 .x7 (.imm 32)]

/-- The loop over the RP1. It ends like the one over the first GiB. -/
def rp1Flags : BootCode :=
  [.alu .lsl .x5 .x3 (.imm 21), .alu .add .x5 .x7 (.x .x5), .mov .x6 (.imm 0x401)]
def rp1Again : BootCode := [.bc .ne .fillRp1]

/-- What follows once the MMU is on. -/
def isbCode : BootCode := [.isb]
def retCode : BootCode := [.ret]

/-- The arguments of the loops over tables. -/
def tableCode (t : BootSym) : BootCode := [.addr .x0 t, .mov .x2 (.imm 512)]
def firstTable : BootCode := [.addr .x0 .bootL0, .mov .x1 (.imm 0), .mov .x2 (.imm 512)]
def fillRange : BootCode := [.addr .x0 .bootL2, .mov .x3 (.imm 0), .mov .x4 (.imm 512)]

/-- `boot.S`. -/
def bootText : List (BootSym × BootCode) :=
  [(.start, startCode ++ descend .el3ToEl1 .el2ToEl1 .el1Start),
    (.el3ToEl1, fromEl3 .el1Start ++ eretCode),
    (.el2ToEl1, fromEl2 .el1Start ++ eretCode),
    (.el1Start, plainCode ++ (sctlrCode ++ (el1StartCode ++ toPrimary))),
    (.wait, waitCode ++ ([.cbz .x2 .sleep] ++ [.b .secondaryEl1Setup])),
    (.sleep, [.wfe, .b .wait]),
    (.primary, primaryCode ++ (mark .x1 66 ++ bssRange)),
    (.bss, [.cmp .x1 (.x .x2), .bc .hs .bssDone, .strPost .xzr .x1, .b .bss]),
    (.bssDone, mark .x1 98 ++ (callMmu ++ (mappedCode ++ brX1))),
    (.halt, [.wfe, .b .halt]),
    (.secondaryStart, descend .secondaryEl3ToEl1 .secondaryEl2ToEl1 .secondaryEl1Setup),
    (.secondaryEl3ToEl1, fromEl3 .secondaryEl1Setup ++ eretCode),
    (.secondaryEl2ToEl1, fromEl2 .secondaryEl1Setup ++ eretCode),
    (.secondaryEl1Setup, setupCode ++ (callMmu ++ (secondaryCode ++ brX1))),
    (.secondaryHalt, [.wfe, .b .secondaryHalt]),
    (.bootEnableMmu, firstTable),
    (.zeroL0, zeroLoop .zeroL0 ++ tableCode .bootL1),
    (.zeroL1, zeroLoop .zeroL1 ++ tableCode .bootL2),
    (.zeroL2, zeroLoop .zeroL2 ++ (linkCode .bootL0 .bootL1 ++ (aliasCode ++
      (linkCode .bootL1 .bootL2 ++ (rp1Link ++ fillRange))))),
    (.fillL2, fillHead ++ (fillBranch ++ fillDevice)),
    (.storeL2, fillTail ++ (fillAgain ++ rp1Head)),
    (.fillRp1, rp1Flags ++ (fillTail ++ (rp1Again ++ (regimeCode ++ (sctlrCode ++ (mmuBitCode ++
      (sctlrCode ++ (isbCode ++ retCode))))))))]

/-- The number of instructions. -/
def bootLength : ℕ := (bootText.flatMap Prod.snd).length

/-- Where things are in physical memory. All of the image is below the peripherals, and what `.boot` has
comes before all else. -/
structure BootImage where
  /-- The start of `.boot`. -/
  boot : ℕ
  tables : BootTables
  vectorTable : ℕ
  kernelMain : ℕ
  secondaryRustEntry : ℕ
  secondaryTable : ℕ
  secondaryStacks : ℕ
  bssStart : ℕ
  bssEnd : ℕ
  stackEndPhys : ℕ
  /-- `__stack_end`, without the base of the kernel's window. -/
  stackEnd : ℕ
  /-- Memory is by doublewords, so what is accessed must be aligned. -/
  aligned : bssStart % 4096 = 0 ∧ secondaryTable % 8 = 0
  code_lt : boot + 4 * bootLength ≤ 0x3F000000
  l0_lt : tables.l0 < 0x3F000000
  l1_lt : tables.l1 < 0x3F000000
  l2_lt : tables.l2 < 0x3F000000
  rp1_lt : tables.l2Rp1 < 0x3F000000
  main_lt : boot + 4 * bootLength ≤ kernelMain ∧ kernelMain < 0x3F000000
  entry_lt : boot + 4 * bootLength ≤ secondaryRustEntry ∧ secondaryRustEntry < 0x3F000000
  vector_lt : vectorTable < 0x3F000000
  table_lt : secondaryTable < 0x3F000000
  stacks_lt : secondaryStacks + 4 * 0x4000 ≤ 0x3F000000
  bss_le : bssStart ≤ bssEnd
  bss_lt : bssEnd < 0x3F000000
  stack_lt : stackEnd < 0x3F000000

namespace BootImage

/-- The addresses of the symbols that `boot.S` imports, and of its tables. -/
def data (g : BootImage) : BootSym → ℕ
  | .kernelVirtBase => kernelVirtBase
  | .secondaryTable => kernelVirtBase + g.secondaryTable
  | .secondaryStacks => kernelVirtBase + g.secondaryStacks
  | .stackEndPhys => g.stackEndPhys
  | .bssStartPhys => g.bssStart
  | .bssEndPhys => g.bssEnd
  | .stackEnd => kernelVirtBase + g.stackEnd
  | .vectorTable => kernelVirtBase + g.vectorTable
  | .kernelMain => kernelVirtBase + g.kernelMain
  | .secondaryRustEntry => kernelVirtBase + g.secondaryRustEntry
  | .bootL0 => g.tables.l0
  | .bootL1 => g.tables.l1
  | .bootL2 => g.tables.l2
  | .bootL2Rp1 => g.tables.l2Rp1
  | _ => 0

/-- `boot.S` in the image. -/
def program (g : BootImage) : Program BootSym := ⟨g.boot, bootText, g.data⟩

end BootImage

/-- The labels are different. -/
theorem bootText_nodup : (bootText.map Prod.fst).Nodup := by decide

end Ralix.Arch.BootAsm
