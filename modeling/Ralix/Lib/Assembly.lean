import Mathlib.Algebra.Ring.Nat
import Mathlib.Data.List.Infix
import Mathlib.Logic.Function.Basic
import Mathlib.Logic.Relation
import Mathlib.Tactic.Common
import Ralix.Lib.Translation

/-!
# Programs for a CPU at several exception levels

A fragment of AArch64 with branches, calls, exception returns and the MMU. A program is a list of
labelled blocks, in the order of its source, and each instruction has an address. The CPU fetches from
where the MMU leads, so code that turns the MMU on runs on only where the tables map it at itself.

`Program.block` runs the instructions of a block in a row, `Program.next` is a step of any kind, and
`Program.loop` is the rule for a loop that counts. `Program.reaches_of_stuck` tells that a run that gets
stuck goes nowhere else.

What is left out is undefined, and stops the run: registers of a higher exception level, exception
returns to anywhere but EL1, and translation with other granules or sizes. Caches and TLBs are left out
as well.
-/

namespace Ralix.Lib.Assembly

/-! ## Registers -/

/-- A general register. -/
inductive Gpr where
  | x0 | x1 | x2 | x3 | x4 | x5 | x6 | x7 | x8 | x9 | x10 | x11 | x12 | x13 | x14 | x15
  | x16 | x17 | x18 | x19 | x20 | x21 | x22 | x23 | x24 | x25 | x26 | x27 | x28 | x29 | x30
deriving DecidableEq

/-- A system register. -/
inductive SysReg where
  | currentEl | spsel | mpidrEl1
  | sctlrEl1 | cpacrEl1 | vbarEl1 | mairEl1 | tcrEl1 | ttbr0El1 | ttbr1El1
  | hcrEl2 | cptrEl2 | cnthctlEl2 | cntvoffEl2 | spsrEl2 | elrEl2
  | scrEl3 | cptrEl3 | spsrEl3 | elrEl3
deriving DecidableEq

/-- The lowest exception level with access to a register. -/
def SysReg.level : SysReg → ℕ
  | scrEl3 | cptrEl3 | spsrEl3 | elrEl3 => 3
  | hcrEl2 | cptrEl2 | cnthctlEl2 | cntvoffEl2 | spsrEl2 | elrEl2 => 2
  | _ => 1

/-- Whether a register has a say in translation at EL1. -/
def SysReg.translates : SysReg → Bool
  | sctlrEl1 | tcrEl1 | ttbr0El1 | ttbr1El1 => true
  | _ => false

/-- The condition flags. -/
structure Flags where
  n : Bool
  z : Bool
  c : Bool
  v : Bool
deriving DecidableEq

/-- The flags of a subtraction. -/
def Flags.ofSub (a b : BitVec 64) : Flags :=
  ⟨(a - b).msb, a == b, decide (b.toNat ≤ a.toNat), BitVec.ssubOverflow a b⟩

/-- A condition of a branch. -/
inductive Cond where
  | eq | ne | lt | hs
deriving DecidableEq

/-- Whether a condition holds. -/
def Cond.holds (f : Flags) : Cond → Bool
  | eq => f.z
  | ne => !f.z
  | lt => f.n != f.v
  | hs => f.c

/-- After a subtraction, `lt` is the order of signed numbers. -/
theorem Cond.holds_lt (a b : BitVec 64) :
    lt.holds (.ofSub a b) = decide (a.toInt < b.toInt) := by
  have ha := BitVec.toInt_lt (x := a)
  have hb := BitVec.toInt_lt (x := b)
  have ha' := BitVec.le_toInt a
  have hb' := BitVec.le_toInt b
  have hsub : (a - b).toInt = (a.toInt - b.toInt).bmod (2^64) := BitVec.toInt_sub
  show ((a - b).msb != BitVec.ssubOverflow a b) = _
  rw [BitVec.msb_eq_toInt, hsub, BitVec.ssubOverflow, Int.bmod_def, Bool.eq_iff_iff,
    bne_iff_ne, ne_eq, Bool.eq_iff_iff]
  simp only [decide_eq_true_eq, Bool.or_eq_true]
  split_ifs <;> omega

/-- What an instruction takes: a register, the zero register, or a constant. -/
inductive Operand where
  | x (r : Gpr)
  | xzr
  | imm (w : BitVec 64)
deriving DecidableEq

/-- An operation on two words. -/
inductive AluOp where
  | add | sub | and | orr | bic | lsl | lsr | mul
deriving DecidableEq

/-- The result of an operation. -/
def AluOp.apply : AluOp → BitVec 64 → BitVec 64 → BitVec 64
  | add, a, b => a + b
  | sub, a, b => a - b
  | and, a, b => a &&& b
  | orr, a, b => a ||| b
  | bic, a, b => a &&& ~~~b
  | lsl, a, b => a <<< (b.toNat % 64)
  | lsr, a, b => a >>> (b.toNat % 64)
  | mul, a, b => a * b

/-! ## The machine -/

/-- A CPU and its memory. `sp` is by exception level, and `out` is what was stored to devices. -/
structure Processor where
  x : Gpr → BitVec 64
  sp : ℕ → BitVec 64
  pc : ℕ
  el : ℕ
  spsel : Bool
  daif : BitVec 4
  flags : Flags
  sys : SysReg → BitVec 64
  mem : PhysMem
  out : List (ℕ × BitVec 32)

/-- Granules of 4 KiB and 48 bits of address, in both halves of the address space. -/
def granule4k48 (tcr : BitVec 64) : Bool :=
  tcr.toNat % 64 == 16 && tcr.toNat / 2^16 % 64 == 16 && tcr.toNat / 2^14 % 4 == 0 &&
    tcr.toNat / 2^30 % 4 == 2

namespace Processor

/-- Whether the MMU is on. Above EL1 it is not. -/
def mmuOn (m : Processor) : Bool := m.el == 1 && (m.sys .sctlrEl1).getLsbD 0

/-- Where an access goes. -/
def xlate (m : Processor) (a : ℕ) : Option ℕ :=
  if m.mmuOn then
    if granule4k48 (m.sys .tcrEl1) then
      (Translation.translate m.mem (Translation.nextTable (m.sys .ttbr0El1).toNat)
        (Translation.nextTable (m.sys .ttbr1El1).toNat) a).map Translation.pa
    else none
  else some a

/-- What translation depends on. -/
theorem xlate_congr {m m' : Processor} (hel : m'.el = m.el) (hmem : m'.mem = m.mem)
    (hsys : ∀ r : SysReg, r.translates → m'.sys r = m.sys r) : m'.xlate = m.xlate := by
  have hmmu : m'.mmuOn = m.mmuOn := by rw [mmuOn, mmuOn, hel, hsys .sctlrEl1 rfl]
  funext a
  rw [xlate, xlate, hmmu, hmem, hsys .tcrEl1 rfl, hsys .ttbr0El1 rfl, hsys .ttbr1El1 rfl]

/-- What an operand is. -/
def read (m : Processor) : Operand → BitVec 64
  | .x r => m.x r
  | .xzr => 0
  | .imm w => w

/-- What a system register reads as. -/
def readSys (m : Processor) : SysReg → BitVec 64
  | .currentEl => BitVec.ofNat 64 (4 * m.el)
  | .spsel => if m.spsel then 1 else 0
  | r => m.sys r

/-- A general register is written. -/
def setX (m : Processor) (r : Gpr) (w : BitVec 64) : Processor :=
  { m with x := Function.update m.x r w }

/-- A system register is written. -/
def writeSys (m : Processor) (r : SysReg) (w : BitVec 64) : Processor :=
  match r with
  | .spsel => { m with spsel := w.getLsbD 0 }
  | r => { m with sys := Function.update m.sys r w }

/-- A doubleword is stored. -/
def store (m : Processor) (a : ℕ) (w : BitVec 64) : Option Processor :=
  (m.xlate a).map fun p => { m with mem := Function.update m.mem p w.toNat }

/-- The stack pointer in use is written. -/
def setSp (m : Processor) (w : BitVec 64) : Processor :=
  { m with sp := Function.update m.sp (if m.spsel then m.el else 0) w }

/-- An exception return with a saved state and an address. It must be one to EL1, and that must be in
AArch64 (`HCR_EL2.RW`) and not taken over by EL2 (`HCR_EL2.TGE`). -/
def returnTo (m : Processor) (spsr elr : BitVec 64) : Option Processor :=
  if spsr.toNat % 32 / 2 = 2 ∧ (m.sys .hcrEl2).getLsbD 31 ∧ !(m.sys .hcrEl2).getLsbD 27 then
    some { m with
      el := 1
      spsel := spsr.getLsbD 0
      daif := spsr.extractLsb' 6 4
      flags := ⟨spsr.getLsbD 31, spsr.getLsbD 30, spsr.getLsbD 29, spsr.getLsbD 28⟩
      pc := elr.toNat }
  else none

/-- `eret`. From EL3, EL2 must be in the same security state and in AArch64 (`SCR_EL3`). -/
def eret (m : Processor) : Option Processor :=
  if m.el = 3 then
    if (m.sys .scrEl3).getLsbD 0 ∧ (m.sys .scrEl3).getLsbD 10 then
      m.returnTo (m.sys .spsrEl3) (m.sys .elrEl3)
    else none
  else if m.el = 2 then m.returnTo (m.sys .spsrEl2) (m.sys .elrEl2)
  else none

end Processor

/-! ## Instructions -/

/-- An instruction, with the symbols `σ` for addresses. -/
inductive Instr (σ : Type) where
  | mov (d : Gpr) (w : Operand)
  /-- `mov wd, wa` -/
  | movw (d a : Gpr)
  | alu (op : AluOp) (d a : Gpr) (w : Operand)
  | subs (d a : Gpr) (w : Operand)
  | cmp (a : Gpr) (w : Operand)
  /-- `ldr xd, =s`, and `adr xd, s` -/
  | addr (d : Gpr) (s : σ)
  | mrs (d : Gpr) (r : SysReg)
  | msr (r : SysReg) (w : Operand)
  /-- `mov sp, xa` -/
  | movSp (a : Gpr)
  /-- `add sp, xa, xi` -/
  | addSp (a i : Gpr)
  /-- `ldr xd, [xa, xi, lsl #3]` -/
  | ldr (d a i : Gpr)
  /-- `str w, [xa]` -/
  | str (w : Operand) (a : Gpr)
  /-- `str w, [xa, xi, lsl #3]` -/
  | strIdx (w : Operand) (a i : Gpr)
  /-- `str w, [xa], #8` -/
  | strPost (w : Operand) (a : Gpr)
  /-- `str we, [xa]`, to a device -/
  | strw (e a : Gpr)
  | isb
  | dsb
  | wfe
  | b (s : σ)
  | bc (c : Cond) (s : σ)
  | cbz (a : Gpr) (s : σ)
  | bl (s : σ)
  | br (a : Gpr)
  | ret
  | eret
deriving DecidableEq

namespace Instr

variable {σ : Type}

/-- The effect of an instruction that is followed by the next. -/
def exec (sym : σ → ℕ) (m : Processor) : Instr σ → Option Processor
  | mov d w => some (m.setX d (m.read w))
  | movw d a => some (m.setX d (BitVec.ofNat 64 ((m.x a).toNat % 2^32)))
  | alu op d a w => some (m.setX d (op.apply (m.x a) (m.read w)))
  | subs d a w =>
    some { m.setX d (m.x a - m.read w) with flags := .ofSub (m.x a) (m.read w) }
  | cmp a w => some { m with flags := .ofSub (m.x a) (m.read w) }
  | addr d s => some (m.setX d (BitVec.ofNat 64 (sym s)))
  | mrs d r => if r.level ≤ m.el then some (m.setX d (m.readSys r)) else none
  | msr r w => if r.level ≤ m.el then some (m.writeSys r (m.read w)) else none
  | movSp a => some (m.setSp (m.x a))
  | addSp a i => some (m.setSp (m.x a + m.x i))
  | ldr d a i =>
    (m.xlate (m.x a + m.x i <<< 3).toNat).map fun p => m.setX d (BitVec.ofNat 64 (m.mem p))
  | str w a => m.store (m.x a).toNat (m.read w)
  | strIdx w a i => m.store (m.x a + m.x i <<< 3).toNat (m.read w)
  | strPost w a => (m.store (m.x a).toNat (m.read w)).map fun m' => m'.setX a (m.x a + 8)
  | strw e a =>
    (m.xlate (m.x a).toNat).map fun p => { m with out := m.out ++ [(p, (m.x e).setWidth 32)] }
  | isb | dsb | wfe => some m
  | _ => none

/-- The effect of an instruction, and the address of the next. -/
def next (sym : σ → ℕ) (m : Processor) : Instr σ → Option Processor
  | b s => some { m with pc := sym s }
  | bc c s => some { m with pc := if c.holds m.flags then sym s else m.pc + 4 }
  | cbz a s => some { m with pc := if m.x a = 0 then sym s else m.pc + 4 }
  | bl s => some { m.setX .x30 (BitVec.ofNat 64 (m.pc + 4)) with pc := sym s }
  | br a => some { m with pc := (m.x a).toNat }
  | ret => some { m with pc := (m.x .x30).toNat }
  | eret => m.eret
  | i => (i.exec sym m).map fun m' => { m' with pc := m.pc + 4 }

/-- Whether an instruction is followed by the next. -/
def isData : Instr σ → Bool
  | b _ | bc _ _ | cbz _ _ | bl _ | br _ | ret | eret => false
  | _ => true

/-- Whether an instruction leaves the switch of the MMU alone. -/
def keepsMmu : Instr σ → Bool
  | msr .sctlrEl1 _ => false
  | _ => true

/-- Whether an instruction leaves all alone that translation depends on. -/
def keepsMap : Instr σ → Bool
  | msr r _ => !r.translates
  | str _ _ | strIdx _ _ _ | strPost _ _ => false
  | _ => true

/-- The effect of instructions in a row. -/
def execs (sym : σ → ℕ) (m : Processor) (is : List (Instr σ)) : Option Processor :=
  is.foldlM (fun m i => i.exec sym m) m

section Effects

variable {sym : σ → ℕ} {m m' : Processor} {i : Instr σ}

/-- Whatever is followed by the next instruction does not look at the program counter. -/
theorem exec_pc (sym : σ → ℕ) (m : Processor) (i : Instr σ) (p : ℕ) :
    i.exec sym { m with pc := p } = (i.exec sym m).map fun m' => { m' with pc := p } := by
  have hxlate : Processor.xlate { m with pc := p } = m.xlate := rfl
  cases i with
  | mrs d r =>
    by_cases h : r.level ≤ m.el
    · simp only [exec, if_pos h, Option.map_some]
      cases r <;> rfl
    · simp only [exec, if_neg h, Option.map_none]
  | msr r w =>
    by_cases h : r.level ≤ m.el
    · simp only [exec, if_pos h, Option.map_some]
      cases r <;> rfl
    · simp only [exec, if_neg h, Option.map_none]
  | ldr d a i => simp only [exec, hxlate, Option.map_map]; rfl
  | str w a => simp only [exec, Processor.store, hxlate, Option.map_map]; rfl
  | strIdx w a i => simp only [exec, Processor.store, hxlate, Option.map_map]; rfl
  | strPost w a => simp only [exec, Processor.store, hxlate, Option.map_map]; rfl
  | strw e a => simp only [exec, hxlate, Option.map_map]; rfl
  | _ => rfl

/-- Instructions in a row do not look at it either. -/
theorem execs_pc (sym : σ → ℕ) (m : Processor) (is : List (Instr σ)) (p : ℕ) :
    execs sym { m with pc := p } is =
      (execs sym m is).map fun m' => { m' with pc := p } := by
  induction is generalizing m with
  | nil => rfl
  | cons i is ih =>
    unfold execs at ih ⊢
    simp only [List.foldlM_cons, exec_pc]
    cases i.exec sym m with
    | none => rfl
    | some m' => exact ih m'

/-- Instructions in a row, one at a time. -/
theorem execs_cons {is : List (Instr σ)} (h : i.exec sym m = some m') :
    execs sym m (i :: is) = execs sym m' is := by
  rw [execs, List.foldlM_cons, h]
  rfl

/-- Instructions in a row, one part after another. -/
theorem execs_append {is js : List (Instr σ)} (h : execs sym m is = some m') :
    execs sym m (is ++ js) = execs sym m' js := by
  rw [execs] at h
  rw [execs, List.foldlM_append, h]
  rfl

/-- The step of an instruction that is followed by the next. -/
theorem next_of_isData (sym : σ → ℕ) (m : Processor) (h : i.isData) :
    i.next sym m = (i.exec sym m).map fun m' => { m' with pc := m.pc + 4 } := by
  cases i <;> first | rfl | cases h

/-- What an instruction that is followed by the next may change: registers and what is sent to devices,
one system register, or memory. -/
theorem exec_cases (h : i.exec sym m = some m') :
    (∃ x sp spsel flags out, m' = { m with x, sp, spsel, flags, out }) ∨
    (∃ r w, i = msr r w ∧ m' = { m with sys := Function.update m.sys r (m.read w) }) ∨
    i.keepsMap = false ∧ i.keepsMmu ∧ ∃ x mem, m' = { m with x, mem } := by
  cases i with
  | mrs d r =>
    simp only [exec] at h
    split_ifs at h
    cases h
    exact .inl ⟨_, _, _, _, _, rfl⟩
  | msr r w =>
    simp only [exec] at h
    split_ifs at h
    cases h
    cases r with
    | spsel => exact .inl ⟨_, _, _, _, _, rfl⟩
    | _ => exact .inr (.inl ⟨_, _, rfl, rfl⟩)
  | ldr d a i =>
    obtain ⟨p, -, rfl⟩ := Option.map_eq_some_iff.mp h
    exact .inl ⟨_, _, _, _, _, rfl⟩
  | strw e a =>
    obtain ⟨p, -, rfl⟩ := Option.map_eq_some_iff.mp h
    exact .inl ⟨_, _, _, _, _, rfl⟩
  | str w a =>
    obtain ⟨p, -, rfl⟩ := Option.map_eq_some_iff.mp h
    exact .inr (.inr ⟨rfl, rfl, _, _, rfl⟩)
  | strIdx w a i =>
    obtain ⟨p, -, rfl⟩ := Option.map_eq_some_iff.mp h
    exact .inr (.inr ⟨rfl, rfl, _, _, rfl⟩)
  | strPost w a =>
    obtain ⟨m₁, hm₁, rfl⟩ := Option.map_eq_some_iff.mp h
    obtain ⟨p, -, rfl⟩ := Option.map_eq_some_iff.mp hm₁
    exact .inr (.inr ⟨rfl, rfl, _, _, rfl⟩)
  | b _ | bc _ _ | cbz _ _ | bl _ | br _ | ret | eret => cases h
  | _ =>
    cases h
    exact .inl ⟨_, _, _, _, _, rfl⟩

/-- The MMU stays on or off. -/
theorem exec_mmuOn (hkeep : i.keepsMmu) (h : i.exec sym m = some m') : m'.mmuOn = m.mmuOn := by
  rcases exec_cases h with ⟨_, _, _, _, _, rfl⟩ | ⟨r, w, rfl, rfl⟩ | ⟨-, -, _, _, rfl⟩
  · rfl
  · have hr : SysReg.sctlrEl1 ≠ r := by rintro rfl; cases hkeep
    show (m.el == 1 && (Function.update m.sys r (m.read w) .sctlrEl1).getLsbD 0) = _
    rw [Function.update_of_ne hr]
    rfl
  · rfl

/-- Accesses still go where they went. -/
theorem exec_xlate (hkeep : i.keepsMap) (h : i.exec sym m = some m') : m'.xlate = m.xlate := by
  rcases exec_cases h with ⟨_, _, _, _, _, rfl⟩ | ⟨r, w, rfl, rfl⟩ | ⟨hmap, -⟩
  · rfl
  · have hr : ∀ q : SysReg, q.translates → Function.update m.sys r (m.read w) q = m.sys q := by
      rintro q hq
      refine Function.update_of_ne ?_ ..
      rintro rfl
      rw [keepsMap, hq] at hkeep
      cases hkeep
    exact Processor.xlate_congr rfl rfl hr
  · rw [hmap] at hkeep
    cases hkeep

end Effects

end Instr

/-! ## Programs -/

/-- A program: labelled blocks in the order of its source, the address of the first, and the symbols
that are not labels. -/
structure Program (σ : Type) where
  base : ℕ
  text : List (σ × List (Instr σ))
  data : σ → ℕ

namespace Program

variable {σ : Type}

/-- All the instructions. -/
def code (P : Program σ) : List (Instr σ) := P.text.flatMap Prod.snd

/-- The instruction at a physical address. -/
def fetch (P : Program σ) (a : ℕ) : Option (Instr σ) :=
  if P.base ≤ a ∧ (a - P.base) % 4 = 0 then P.code[(a - P.base) / 4]? else none

/-- Instructions are at an address. -/
def At (P : Program σ) (a : ℕ) (is : List (Instr σ)) : Prop :=
  ∀ i (hi : i < is.length), P.fetch (a + 4 * i) = some is[i]

/-- The program runs where it is. -/
def Direct (P : Program σ) (m : Processor) : Prop :=
  ∀ a, P.base ≤ a → a < P.base + 4 * P.code.length → m.xlate a = some a

section Places

variable {P : Program σ} {m : Processor} {a : ℕ} {i : Instr σ} {is js : List (Instr σ)}

/-- Instructions after instructions. -/
theorem at_append : P.At a (is ++ js) ↔ P.At a is ∧ P.At (a + 4 * is.length) js := by
  constructor
  · intro h
    constructor
    · intro k hk
      rw [h k (by rw [List.length_append]; omega), List.getElem_append_left hk]
    · intro k hk
      have hat := h (is.length + k) (by rw [List.length_append]; omega)
      rw [List.getElem_append_right (by omega)] at hat
      rw [show a + 4 * is.length + 4 * k = a + 4 * (is.length + k) by omega, hat]
      simp only [Nat.add_sub_cancel_left]
  · rintro ⟨his, hjs⟩ k hk
    by_cases hlt : k < is.length
    · rw [his k hlt, List.getElem_append_left hlt]
    · rw [List.length_append] at hk
      have hat := hjs (k - is.length) (by omega)
      rw [List.getElem_append_right (by omega), ← hat,
        show a + 4 * is.length + 4 * (k - is.length) = a + 4 * k by omega]

/-- An instruction before instructions. -/
theorem at_cons : P.At a (i :: is) ↔ P.At a [i] ∧ P.At (a + 4) is := by
  have h : P.At a ([i] ++ is) ↔ P.At a [i] ∧ P.At (a + 4) is := at_append
  exact h

/-- The address of an instruction is in the program. -/
theorem fetch_bounds (h : P.fetch a = some i) : P.base ≤ a ∧ a < P.base + 4 * P.code.length := by
  unfold fetch at h
  split_ifs at h with ha
  have hlt := (List.getElem?_eq_some_iff.mp h).1
  omega

/-- The instructions of a part of the program. -/
theorem at_of_code {pre post : List (Instr σ)} (h : P.code = pre ++ is ++ post) :
    P.At (P.base + 4 * pre.length) is := by
  intro k hk
  have hidx : (P.base + 4 * pre.length + 4 * k - P.base) / 4 = pre.length + k := by omega
  rw [fetch, if_pos (by omega), hidx, h, List.append_assoc, List.getElem?_append_right (by omega),
    Nat.add_sub_cancel_left, List.getElem?_append_left hk, List.getElem?_eq_getElem hk]

/-- With the MMU off, an access goes where it says. -/
theorem xlate_of_off (h : m.mmuOn = false) (a : ℕ) : m.xlate a = some a := by
  rw [Processor.xlate, if_neg (by simp [h])]

/-- With the MMU off, a program runs where it is. -/
theorem direct_of_off (h : m.mmuOn = false) : P.Direct m := fun a _ _ => xlate_of_off h a

end Places

/-! ### Symbols -/

variable [DecidableEq σ]

/-- How many instructions are before a label. -/
def before (s : σ) : List (σ × List (Instr σ)) → Option ℕ
  | [] => none
  | (l, is) :: text => if l = s then some 0 else (before s text).map (is.length + ·)

/-- The address of a symbol. -/
def sym (P : Program σ) (s : σ) : ℕ :=
  match before s P.text with
  | some k => P.base + 4 * k
  | none => P.data s

section Labels

variable {P : Program σ} {l l' : σ} {is js : List (Instr σ)} {pre post : List (σ × List (Instr σ))}

/-- What is before a label, when the labels are different. -/
theorem before_append (h : l ∉ pre.map Prod.fst) :
    before l (pre ++ (l, is) :: post) = some (pre.flatMap Prod.snd).length := by
  induction pre with
  | nil => exact if_pos rfl
  | cons b pre ih =>
    rw [List.map_cons, List.mem_cons, not_or] at h
    rw [List.cons_append, before, if_neg (Ne.symm h.1), ih h.2, Option.map_some, List.flatMap_cons,
      List.length_append]

variable (hnodup : (P.text.map Prod.fst).Nodup)

include hnodup

/-- The address of a label between two parts of a program. -/
theorem sym_append (h : P.text = pre ++ (l, is) :: post) :
    P.sym l = P.base + 4 * (pre.flatMap Prod.snd).length := by
  have hpre : l ∉ pre.map Prod.fst := by
    rw [h, List.map_append, List.map_cons, List.nodup_append] at hnodup
    exact fun hmem => hnodup.2.2 l hmem l List.mem_cons_self rfl
  rw [sym, h, before_append hpre]

/-- The block of a label is at its address. -/
theorem at_label (h : (l, is) ∈ P.text) : P.At (P.sym l) is := by
  obtain ⟨pre, post, htext⟩ := List.append_of_mem h
  have hcode : P.code = pre.flatMap Prod.snd ++ is ++ post.flatMap Prod.snd := by
    rw [code, htext, List.flatMap_append, List.flatMap_cons, List.append_assoc]
  rw [sym_append hnodup htext]
  exact at_of_code hcode

/-- A block is followed by the next one. -/
theorem sym_next (h : [(l, is), (l', js)] <:+: P.text) : P.sym l' = P.sym l + 4 * is.length := by
  obtain ⟨pre, post, htext⟩ := h
  have hl : P.text = pre ++ (l, is) :: ((l', js) :: post) := by rw [← htext]; simp
  have hl' : P.text = (pre ++ [(l, is)]) ++ (l', js) :: post := by rw [← htext]; simp
  rw [sym_append hnodup hl, sym_append hnodup hl', List.flatMap_append, List.length_append,
    List.flatMap_singleton, Nat.mul_add, Nat.add_assoc]

end Labels

/-! ## Steps -/

/-- One step. A machine that has none is stuck. -/
def step (P : Program σ) (m : Processor) : Option Processor :=
  ((m.xlate m.pc).bind P.fetch).bind (Instr.next P.sym m)

/-- One machine is on the way of another. -/
def Reaches (P : Program σ) : Processor → Processor → Prop :=
  Relation.ReflTransGen fun m m' => P.step m = some m'

section Rules

variable {P : Program σ} {m m' s t : Processor} {i : Instr σ} {is : List (Instr σ)}

/-- A step, by the instruction at the program counter. -/
theorem step_eq (hdirect : P.Direct m) (hat : P.At m.pc [i]) : P.step m = i.next P.sym m := by
  have hfetch : P.fetch m.pc = some i := hat 0 Nat.one_pos
  obtain ⟨hlo, hhi⟩ := fetch_bounds hfetch
  rw [step, hdirect _ hlo hhi, Option.bind_some, hfetch, Option.bind_some]

/-- A step of any kind. -/
theorem next (hdirect : P.Direct m) (hat : P.At m.pc [i]) (h : i.next P.sym m = some m') :
    P.Reaches m m' :=
  .single ((step_eq hdirect hat).trans h)

/-- Instructions in a row, while an invariant lets the program run where it is. -/
theorem block_of {I : Processor → Prop} (hdirect : ∀ m, I m → P.Direct m)
    (hpc : ∀ m p, I m → I { m with pc := p })
    (hkeep : ∀ i ∈ is, ∀ m m', I m → i.exec P.sym m = some m' → I m') (hdata : is.all Instr.isData)
    (hm : I m) (hat : P.At m.pc is) (h : Instr.execs P.sym m is = some m') :
    P.Reaches m { m' with pc := m.pc + 4 * is.length } := by
  induction is generalizing m m' with
  | nil =>
    cases h
    exact .refl
  | cons i is ih =>
    rw [List.all_cons, Bool.and_eq_true] at hdata
    rw [List.forall_mem_cons] at hkeep
    obtain ⟨hat₁, hat₂⟩ := at_cons.mp hat
    rw [Instr.execs, List.foldlM_cons, Option.bind_eq_bind, Option.bind_eq_some_iff] at h
    obtain ⟨m₁, hm₁, hrest⟩ := h
    have hstep : P.Reaches m { m₁ with pc := m.pc + 4 } :=
      next (hdirect m hm) hat₁ (by rw [Instr.next_of_isData _ _ hdata.1, hm₁, Option.map_some])
    have hexecs : Instr.execs P.sym { m₁ with pc := m.pc + 4 } is =
        some { m' with pc := m.pc + 4 } := by
      rw [Instr.execs_pc, Instr.execs, hrest, Option.map_some]
    have htail := ih hkeep.2 hdata.2 (hpc _ (m.pc + 4) (hkeep.1 m m₁ hm hm₁)) hat₂ hexecs
    rw [List.length_cons, show m.pc + 4 * (is.length + 1) = m.pc + 4 + 4 * is.length by omega]
    exact hstep.trans htail

/-- Instructions in a row, with the MMU off. -/
theorem block_off (hoff : m.mmuOn = false) (hdata : is.all Instr.isData)
    (hkeep : is.all Instr.keepsMmu) (hat : P.At m.pc is) (h : Instr.execs P.sym m is = some m') :
    P.Reaches m { m' with pc := m.pc + 4 * is.length } :=
  block_of (I := fun m => m.mmuOn = false) (fun _ => direct_of_off) (fun _ _ hm => hm)
    (fun _ hi _ _ hm he => (Instr.exec_mmuOn (List.all_eq_true.mp hkeep _ hi) he).trans hm) hdata hoff
    hat h

/-- Instructions in a row, where the tables map the program at itself. -/
theorem block_on (hdirect : P.Direct m) (hdata : is.all Instr.isData)
    (hkeep : is.all Instr.keepsMap) (hat : P.At m.pc is) (h : Instr.execs P.sym m is = some m') :
    P.Reaches m { m' with pc := m.pc + 4 * is.length } := by
  refine block_of (I := P.Direct) (fun _ hm => hm) (fun _ _ hm => hm) (fun i hi m m' hm he => ?_)
    hdata hdirect hat h
  intro a hlo hhi
  rw [Instr.exec_xlate (List.all_eq_true.mp hkeep i hi) he]
  exact hm a hlo hhi

/-- A loop that counts: what each round takes from one number to the next. -/
theorem loop {S : ℕ → Processor → Prop} {n : ℕ}
    (hround : ∀ k < n, ∀ m, S k m → ∃ m', P.Reaches m m' ∧ S (k + 1) m') (h : S 0 m) :
    ∃ m', P.Reaches m m' ∧ S n m' := by
  induction n with
  | zero => exact ⟨m, .refl, h⟩
  | succ n ih =>
    obtain ⟨m₁, hm₁, hS⟩ := ih fun k hk => hround k (Nat.lt_succ_of_lt hk)
    obtain ⟨m₂, hm₂, hS⟩ := hround n (Nat.lt_succ_self n) m₁ hS
    exact ⟨m₂, hm₁.trans hm₂, hS⟩

/-- All that a machine reaches is on the way to where it gets stuck. -/
theorem reaches_of_stuck (hs : P.Reaches m s) (hstuck : P.step s = none) (ht : P.Reaches m t) :
    P.Reaches t s := by
  have hunique : Relator.RightUnique fun m m' => P.step m = some m' :=
    fun _ _ _ h₁ h₂ => Option.some.inj (h₁.symm.trans h₂)
  rcases Relation.ReflTransGen.total_of_right_unique hunique hs ht with hst | hts
  · rcases Relation.ReflTransGen.cases_head hst with rfl | ⟨_, h, -⟩
    · exact .refl
    · cases hstuck.symm.trans h
  · exact hts

/-- A run that comes to a place again and again, with a step in between, always comes there again. -/
theorem recurs {W : Processor → Prop}
    (hround : ∀ n, W n → ∃ s, P.Reaches n s ∧ s ≠ n ∧ ∃ n', P.Reaches s n' ∧ W n')
    (hfirst : ∃ n, P.Reaches m n ∧ W n) (ht : P.Reaches m t) : ∃ n, P.Reaches t n ∧ W n := by
  induction ht with
  | refl => exact hfirst
  | tail _ hstep ih =>
    obtain ⟨n, hn, hW⟩ := ih
    -- a step from the place itself is the first of a round
    obtain ⟨s, hs, hlater⟩ : ∃ s, P.Reaches _ s ∧ ∃ n', P.Reaches s n' ∧ W n' := by
      rcases Relation.ReflTransGen.cases_head hn with rfl | ⟨u, hu, hun⟩
      · obtain ⟨s, hs, hne, hlater⟩ := hround _ hW
        rcases Relation.ReflTransGen.cases_head hs with rfl | ⟨u, hu, hus⟩
        · exact absurd rfl hne
        · cases hu.symm.trans hstep
          exact ⟨s, hus, hlater⟩
      · cases hu.symm.trans hstep
        exact ⟨n, hun, n, .refl, hW⟩
    obtain ⟨n', hn', hW'⟩ := hlater
    exact ⟨n', hs.trans hn', hW'⟩

end Rules

end Program

end Ralix.Lib.Assembly
