import Ralix.Lib.Writes

/-!
# A fragment of AArch64

The registers of a core and the instructions that move them to and from its stack. Memory is a map
from addresses to doublewords: the stack pointer is a multiple of 16 and the offsets are multiples
of 8, so no two accesses overlap in part. A run of stores is a list of writes to memory
(`runs_stores`), and a run of loads is a list of writes to the registers (`runs_loads`), so that what
a long sequence leaves in a word or in a register is found by looking in a list.

`Aapcs64` is what the procedure call standard promises about a call. It says nothing on the
caller-saved registers, and of a vector register it keeps at most the low half.
-/

namespace Ralix.Lib.AArch64

/-- Doublewords by their addresses. -/
abbrev Mem := BitVec 64 → BitVec 64

/-- The registers of the vector unit. -/
structure Simd where
  v : Fin 32 → BitVec 128
  fpcr : BitVec 64
  fpsr : BitVec 64

/-- The registers of a core at EL1 that a program or an exception changes. `sp` is `SP_EL1`. -/
structure Core where
  x : Fin 31 → BitVec 64
  sp : BitVec 64
  pc : BitVec 64
  pstate : BitVec 64
  elr : BitVec 64
  spsr : BitVec 64
  spEl0 : BitVec 64
  simd : Simd

/-- The operand of a load or store. -/
inductive Reg where
  | x (n : Fin 31)
  | xzr
deriving DecidableEq

/-- A system register. -/
inductive SysReg where
  | elr
  | spsr
  | spEl0
deriving DecidableEq

/-- An instruction. Offsets are from `sp`. -/
inductive Instr where
  | subSp (imm : BitVec 64)
  | addSp (imm : BitVec 64)
  | stp (r₁ r₂ : Reg) (off : BitVec 64)
  | str (r : Reg) (off : BitVec 64)
  | ldp (r₁ r₂ : Reg) (off : BitVec 64)
  | ldr (r : Reg) (off : BitVec 64)
  | mrs (n : Fin 31) (s : SysReg)
  | msr (s : SysReg) (n : Fin 31)
  /-- `mov x, sp` -/
  | movFromSp (n : Fin 31)
  /-- `mov sp, x` -/
  | movToSp (n : Fin 31)
  | eret

namespace Core

/-- What a register reads as. -/
def read (c : Core) : Reg → BitVec 64
  | .x n => c.x n
  | .xzr => 0

/-- The core with other general registers. -/
def withX (c : Core) (x : Fin 31 → BitVec 64) : Core := { c with x := x }

/-- A value is written to a register. -/
def write (c : Core) (r : Reg) (w : BitVec 64) : Core :=
  match r with
  | .x n => c.withX (Function.update c.x n w)
  | .xzr => c

/-- What a system register reads as. -/
def readSys (c : Core) : SysReg → BitVec 64
  | .elr => c.elr
  | .spsr => c.spsr
  | .spEl0 => c.spEl0

/-- A value is written to a system register. -/
def writeSys (c : Core) (s : SysReg) (w : BitVec 64) : Core :=
  match s with
  | .elr => { c with elr := w }
  | .spsr => { c with spsr := w }
  | .spEl0 => { c with spEl0 := w }

/-- An interrupt is taken to the same exception level: the context's `pc` and `PSTATE` go to the
exception registers, and `PSTATE.{D,A,I,F}` are set. The `pc` within the handler is not tracked. -/
def takeIrq (c : Core) : Core :=
  { c with elr := c.pc, spsr := c.pstate, pstate := c.pstate ||| 0x3c0 }

end Core

/-- The effect of an instruction. -/
def Instr.exec : Instr → Core × Mem → Core × Mem
  | .subSp imm, (c, m) => ({ c with sp := c.sp - imm }, m)
  | .addSp imm, (c, m) => ({ c with sp := c.sp + imm }, m)
  | .stp r₁ r₂ off, (c, m) =>
    (c, Function.update (Function.update m (c.sp + off) (c.read r₁)) (c.sp + (off + 8)) (c.read r₂))
  | .str r off, (c, m) => (c, Function.update m (c.sp + off) (c.read r))
  | .ldp r₁ r₂ off, (c, m) => ((c.write r₁ (m (c.sp + off))).write r₂ (m (c.sp + (off + 8))), m)
  | .ldr r off, (c, m) => (c.write r (m (c.sp + off)), m)
  | .mrs n s, (c, m) => (c.write (.x n) (c.readSys s), m)
  | .msr s n, (c, m) => (c.writeSys s (c.x n), m)
  | .movFromSp n, (c, m) => (c.write (.x n) c.sp, m)
  | .movToSp n, (c, m) => ({ c with sp := c.x n }, m)
  | .eret, (c, m) => ({ c with pc := c.elr, pstate := c.spsr }, m)

/-- The effect of instructions in a row. -/
def runs (is : List Instr) (s : Core × Mem) : Core × Mem := is.foldl (fun s i => i.exec s) s

/-- Instructions after instructions. -/
theorem runs_append (is js : List Instr) (s : Core × Mem) :
    runs (is ++ js) s = runs js (runs is s) := List.foldl_append

/-- The slots that a store writes, by offset, with the registers that go there. -/
def Instr.stores : Instr → List (BitVec 64 × Reg)
  | .stp r₁ r₂ off => [(off, r₁), (off + 8, r₂)]
  | .str r off => [(off, r)]
  | _ => []

/-- Whether an instruction is a store. -/
def Instr.isStore : Instr → Bool
  | .stp _ _ _ | .str _ _ => true
  | _ => false

/-- A register that is loaded, with the offset of the word that goes there. `xzr` drops it. -/
def Reg.load (off : BitVec 64) : Reg → List (Fin 31 × BitVec 64)
  | .x n => [(n, off)]
  | .xzr => []

/-- The registers that a load writes, with the offsets of the words that go there. -/
def Instr.loads : Instr → List (Fin 31 × BitVec 64)
  | .ldp r₁ r₂ off => r₁.load off ++ r₂.load (off + 8)
  | .ldr r off => r.load off
  | _ => []

/-- Whether an instruction is a load. -/
def Instr.isLoad : Instr → Bool
  | .ldp _ _ _ | .ldr _ _ => true
  | _ => false

section Runs

variable {is : List Instr} {c : Core} {m : Mem}

/-- Stores in a row are writes to memory. -/
theorem runs_stores (h : is.all Instr.isStore) :
    runs is (c, m) =
      (c, applyWrites m ((is.flatMap Instr.stores).map fun w => (c.sp + w.1, c.read w.2))) := by
  induction is generalizing m with
  | nil => rfl
  | cons i is ih =>
    rw [List.all_cons, Bool.and_eq_true] at h
    rw [List.flatMap_cons, List.map_append, applyWrites_append]
    show runs is (i.exec (c, m)) = _
    -- A store leaves the registers alone, so the rest stores the same values.
    have hi : i.exec (c, m) =
        (c, applyWrites m (i.stores.map fun w => (c.sp + w.1, c.read w.2))) := by
      cases i with
      | stp r₁ r₂ off => rfl
      | str r off => rfl
      | _ => cases h.1
    rw [hi]
    exact ih h.2

/-- Loads in a row are writes to the registers. -/
theorem runs_loads (h : is.all Instr.isLoad) :
    runs is (c, m) =
      (c.withX (applyWrites c.x ((is.flatMap Instr.loads).map fun l => (l.1, m (c.sp + l.2)))),
        m) := by
  induction is generalizing c with
  | nil => rfl
  | cons i is ih =>
    rw [List.all_cons, Bool.and_eq_true] at h
    rw [List.flatMap_cons, List.map_append, applyWrites_append]
    show runs is (i.exec (c, m)) = _
    -- A load leaves `sp` and memory alone, so the rest loads the same words.
    have hi : i.exec (c, m) =
        (c.withX (applyWrites c.x (i.loads.map fun l => (l.1, m (c.sp + l.2)))), m) := by
      cases i with
      | ldp r₁ r₂ off => cases r₁ <;> cases r₂ <;> rfl
      | ldr r off => cases r <;> rfl
      | _ => cases h.1
    rw [hi]
    exact ih h.2

/-- A register that loads in a row write once holds the word that went there. -/
theorem runs_loads_mem (h : is.all Instr.isLoad)
    (hnodup : ((is.flatMap Instr.loads).map Prod.fst).Nodup) {n : Fin 31} {off : BitVec 64}
    (hn : (n, off) ∈ is.flatMap Instr.loads) :
    (runs is (c, m)).1.x n = m (c.sp + off) := by
  rw [runs_loads h]
  refine applyWrites_of_mem_nodup ?_ (List.mem_map_of_mem hn)
  rwa [List.map_map]

end Runs

/-! ## Calls -/

/-- What the procedure call standard promises of the registers after a call: `x19` to `x29`, `sp`,
and the low halves of `v8` to `v15` are as before it. -/
structure Aapcs64 (c c' : Core) : Prop where
  x : ∀ n : Fin 31, 19 ≤ n → n ≤ 29 → c'.x n = c.x n
  sp : c'.sp = c.sp
  v : ∀ n : Fin 32, 8 ≤ n → n ≤ 15 → (c'.simd.v n).setWidth 64 = (c.simd.v n).setWidth 64

end Ralix.Lib.AArch64
