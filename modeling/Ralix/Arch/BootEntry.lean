import Ralix.Arch.BootMmu
import Ralix.Arch.Handover

/-!
# From the entry to Rust

What the CPUs do in `boot.S`, whatever exception level they start at: CPU 0 from `_start` to
`kernel_main`, and the others to `secondary_rust_entry`.
-/

namespace Ralix.Arch.BootAsm

open Lib Lib.Assembly Mm

section Descent

variable (g : BootImage) {m : Processor} {el1 el2 el3 : BootSym}

/-- How firmware starts a CPU: at any exception level but EL0, with the MMU of EL1 off. In EL3, EL1 must
be in AArch64 already, since `el3_to_el1` does not see to it. -/
structure ColdStart (m : Processor) : Prop where
  el : m.el = 1 ∨ m.el = 2 ∨ m.el = 3
  off : (m.sys .sctlrEl1).getLsbD 0 = false
  hcr : m.el = 3 → (m.sys .hcrEl2).getLsbD 31 ∧ (m.sys .hcrEl2).getLsbD 27 = false

/-- The MMU is off. -/
theorem ColdStart.mmuOn (h : ColdStart m) : m.mmuOn = false := by
  rw [Processor.mmuOn, h.off, Bool.and_false]

/-- What a CPU keeps on its way to EL1. Interrupts are masked, unless it was there. -/
structure Entered (m m' : Processor) : Prop where
  el : m'.el = 1
  daif : m'.daif = if m.el = 1 then m.daif else 15
  mem : m'.mem = m.mem
  out : m'.out = m.out
  sys : ∀ r : SysReg, r.level = 1 → m'.sys r = m.sys r
  x : ∀ r ∉ [Gpr.x0, Gpr.x1], m'.x r = m.x r

/-- The exception level, from `CurrentEL`. -/
theorem level_eq (hel : m.el = 1 ∨ m.el = 2 ∨ m.el = 3) :
    BitVec.ofNat 64 (4 * m.el) >>> 2 = BitVec.ofNat 64 m.el := by
  rcases hel with h | h | h <;> rw [h] <;> rfl

/-- A comparison with an exception level. -/
theorem at_level (hel : m.el = 1 ∨ m.el = 2 ∨ m.el = 3) {n : ℕ} (hn : n < 4) :
    Cond.eq.holds (.ofSub (BitVec.ofNat 64 m.el) (BitVec.ofNat 64 n)) = decide (m.el = n) := by
  show (BitVec.ofNat 64 m.el == BitVec.ofNat 64 n) = _
  rw [Bool.eq_iff_iff, beq_iff_eq, decide_eq_true_eq, ← BitVec.toNat_inj, BitVec.toNat_ofNat,
    BitVec.toNat_ofNat]
  omega

/-- The exception level is read. -/
theorem read_level (hel : m.el = 1 ∨ m.el = 2 ∨ m.el = 3) (hoff : m.mmuOn = false)
    (hat : g.program.At m.pc [.mrs .x0 .currentEl, .alu .lsr .x0 .x0 (.imm 2)]) :
    ∃ m', g.program.Reaches m m' ∧ Kept [.x0] [] m m' ∧ m'.pc = m.pc + 8 ∧ m'.mem = m.mem ∧
      m'.x .x0 = BitVec.ofNat 64 m'.el := by
  have hexecs : Instr.execs g.program.sym m [.mrs .x0 .currentEl, .alu .lsr .x0 .x0 (.imm 2)] =
      some ((m.setX .x0 (BitVec.ofNat 64 (4 * m.el))).setX .x0
        (BitVec.ofNat 64 (4 * m.el) >>> 2)) := by
    rw [Instr.execs_cons (exec_mrs _ (by rcases hel with h | h | h <;> rw [h] <;> decide) _)]
    rfl
  refine ⟨_, Program.block_off hoff rfl rfl hat hexecs,
    (.of_x fun r hr => ?_), rfl, rfl, level_eq hel⟩
  cases r <;> first | exact absurd (by decide) hr | rfl

/-- A branch by exception level. -/
theorem branch_level (hel : m.el = 1 ∨ m.el = 2 ∨ m.el = 3) (hoff : m.mmuOn = false)
    (hx0 : m.x .x0 = BitVec.ofNat 64 m.el) {n : ℕ} (hn : n < 4) {l : BootSym}
    (hat : g.program.At m.pc [.cmp .x0 (.imm (BitVec.ofNat 64 n)), .bc .eq l]) :
    ∃ m', g.program.Reaches m m' ∧ Kept [.x0] [] m m' ∧ m'.mem = m.mem ∧ m'.x .x0 = m.x .x0 ∧
      m'.pc = if m.el = n then g.program.sym l else m.pc + 8 := by
  obtain ⟨hat₁, hat₂⟩ := Program.at_cons.mp hat
  have hcmp := Program.block_off hoff rfl rfl hat₁ rfl
  have hbranch := hcmp.trans (Program.next (Program.direct_of_off hoff) hat₂ rfl)
  have heq : Cond.eq.holds (.ofSub (m.x .x0) (BitVec.ofNat 64 n)) = decide (m.el = n) := by
    rw [hx0, at_level hel hn]
  refine ⟨_, hbranch, .of_x fun _ _ => rfl, rfl, rfl, ?_⟩
  show (if Cond.eq.holds (.ofSub (m.x .x0) (BitVec.ofNat 64 n)) then g.program.sym l
    else m.pc + 4 + 4) = _
  rw [heq]
  simp only [decide_eq_true_eq]

/-- The branches by exception level. -/
theorem descend_branch (hel : m.el = 1 ∨ m.el = 2 ∨ m.el = 3) (hoff : m.mmuOn = false)
    (hat : g.program.At m.pc (descend el3 el2 el1)) :
    ∃ m', g.program.Reaches m m' ∧ Kept [.x0] [] m m' ∧ m'.mem = m.mem ∧
      m'.pc = g.program.sym (if m.el = 3 then el3 else if m.el = 2 then el2 else el1) := by
  obtain ⟨hat₁, hat⟩ : g.program.At m.pc [.mrs .x0 .currentEl, .alu .lsr .x0 .x0 (.imm 2)] ∧
      g.program.At (m.pc + 8) ([.cmp .x0 (.imm 3), .bc .eq el3] ++ ([.cmp .x0 (.imm 2), .bc .eq el2] ++
      [.b el1])) := Program.at_append.mp hat
  obtain ⟨hat₂, hat⟩ := Program.at_append.mp hat
  obtain ⟨hat₃, hat₄⟩ := Program.at_append.mp hat
  obtain ⟨m₁, hread, hkept₁, hpc₁, hmem₁, hx0₁⟩ := read_level g hel hoff hat₁
  obtain ⟨m₂, hthree, hkept₂, hmem₂, hx0₂, hpc₂⟩ := branch_level g (hkept₁.el ▸ hel)
    (hkept₁.mmuOn.trans hoff) hx0₁ (show 3 < 4 by decide) (hpc₁ ▸ hat₂)
  have hkept := hkept₁.trans hkept₂
  rw [hkept₁.el, hpc₁] at hpc₂
  -- EL3 is told apart first, then EL2, and what is left is EL1
  by_cases hel₃ : m.el = 3
  · rw [if_pos hel₃] at hpc₂ ⊢
    exact ⟨m₂, hread.trans hthree, hkept, hmem₂.trans hmem₁, hpc₂⟩
  rw [if_neg hel₃] at hpc₂ ⊢
  have hx0 : m₂.x .x0 = BitVec.ofNat 64 m₂.el := by rw [hx0₂, hx0₁, hkept₂.el]
  obtain ⟨m₃, htwo, hkept₃, hmem₃, -, hpc₃⟩ := branch_level g (hkept.el ▸ hel)
    (hkept.mmuOn.trans hoff) hx0 (show 2 < 4 by decide) (hpc₂ ▸ hat₃)
  rw [hkept.el, hpc₂] at hpc₃
  have hreach := hread.trans (hthree.trans htwo)
  have hmem := hmem₃.trans (hmem₂.trans hmem₁)
  by_cases hel₂ : m.el = 2
  · rw [if_pos hel₂] at hpc₃ ⊢
    exact ⟨m₃, hreach, hkept.trans hkept₃, hmem, hpc₃⟩
  · rw [if_neg hel₂] at hpc₃ ⊢
    have hoff₃ := (hkept.trans hkept₃).mmuOn.trans hoff
    have hb := hreach.trans (Program.next (Program.direct_of_off hoff₃) (hpc₃ ▸ hat₄) rfl)
    have hkept₄ := hkept.trans hkept₃
    exact ⟨_, hb, ⟨hkept₄.el, hkept₄.spsel, hkept₄.daif, hkept₄.sp, hkept₄.out, hkept₄.sys, hkept₄.x⟩,
      hmem, rfl⟩

/-- The rest of the way from EL3. -/
theorem exec_fromEl3 (sym : BootSym → ℕ) (el1 : BootSym) (hel : m.el = 3) :
    ∃ x sys, Instr.execs sym m (fromEl3 el1) = some { m with x := x, sys := sys } ∧
      sys .scrEl3 = 0x401 ∧ sys .spsrEl3 = 0x3C5 ∧ sys .elrEl3 = BitVec.ofNat 64 (sym el1) ∧
      sys .hcrEl2 = m.sys .hcrEl2 ∧ (∀ r : SysReg, r.level = 1 → sys r = m.sys r) ∧
      ∀ r ∉ [Gpr.x0, Gpr.x1], x r = m.x r := by
  have hlevel : ∀ r : SysReg, r.level ≤ m.el := by rw [hel]; intro r; cases r <;> decide
  unfold fromEl3
  rw [Instr.execs_cons rfl, Instr.execs_cons (exec_msr _ (by exact hlevel _) _),
    Instr.execs_cons (exec_msr _ (by exact hlevel _) _), Instr.execs_cons rfl,
    Instr.execs_cons (exec_msr _ (by exact hlevel _) _),
    Instr.execs_cons (exec_msr _ (by exact hlevel _) _), Instr.execs_cons rfl,
    Instr.execs_cons (exec_msr _ (by exact hlevel _) _), Instr.execs_cons rfl,
    Instr.execs_cons (exec_msr _ (by exact hlevel _) _)]
  refine ⟨_, _, rfl, rfl, rfl, rfl, rfl, fun r hr => ?_, fun r hr => ?_⟩
  · cases r <;> first | rfl | cases hr
  · cases r <;> first | exact absurd (by decide) hr | rfl

/-- The rest of the way from EL2. -/
theorem exec_fromEl2 (sym : BootSym → ℕ) (el1 : BootSym) (hel : m.el = 2) :
    ∃ x sys, Instr.execs sym m (fromEl2 el1) = some { m with x := x, sys := sys } ∧
      sys .hcrEl2 = 0x80000000 ∧ sys .spsrEl2 = 0x3C5 ∧ sys .elrEl2 = BitVec.ofNat 64 (sym el1) ∧
      (∀ r : SysReg, r.level = 1 → sys r = m.sys r) ∧ ∀ r ∉ [Gpr.x0, Gpr.x1], x r = m.x r := by
  have hlevel : ∀ r : SysReg, r.level ≤ 2 → r.level ≤ m.el := fun r hr => hel ▸ hr
  unfold fromEl2
  rw [Instr.execs_cons rfl, Instr.execs_cons (exec_msr _ (by exact hlevel _ (by decide)) _),
    Instr.execs_cons (exec_msr _ (by exact hlevel _ (by decide)) _),
    Instr.execs_cons (exec_msr _ (by exact hlevel _ (by decide)) _), Instr.execs_cons rfl,
    Instr.execs_cons (exec_msr _ (by exact hlevel _ (by decide)) _), Instr.execs_cons rfl,
    Instr.execs_cons (exec_msr _ (by exact hlevel _ (by decide)) _), Instr.execs_cons rfl,
    Instr.execs_cons (exec_msr _ (by exact hlevel _ (by decide)) _)]
  refine ⟨_, _, rfl, rfl, rfl, rfl, fun r hr => ?_, fun r hr => ?_⟩
  · cases r <;> first | rfl | cases hr
  · cases r <;> first | exact absurd (by decide) hr | rfl

/-- A return to EL1 with interrupts masked. -/
theorem returnTo_masked (h31 : (m.sys .hcrEl2).getLsbD 31) (h27 : (m.sys .hcrEl2).getLsbD 27 = false)
    (elr : BitVec 64) : ∃ flags, m.returnTo 0x3C5 elr =
      some { m with el := 1, spsel := true, daif := 15, flags := flags, pc := elr.toNat } := by
  have hto : (0x3C5 : BitVec 64).toNat % 32 / 2 = 2 ∧ (m.sys .hcrEl2).getLsbD 31 ∧
      !(m.sys .hcrEl2).getLsbD 27 := ⟨rfl, h31, by rw [h27]; rfl⟩
  exact ⟨_, if_pos hto⟩

/-- The exception return from EL3. -/
theorem eret_el3 (hel : m.el = 3) (hscr : m.sys .scrEl3 = 0x401) (hspsr : m.sys .spsrEl3 = 0x3C5)
    (h31 : (m.sys .hcrEl2).getLsbD 31) (h27 : (m.sys .hcrEl2).getLsbD 27 = false) :
    ∃ flags, m.eret = some { m with
      el := 1, spsel := true, daif := 15, flags := flags, pc := (m.sys .elrEl3).toNat } := by
  have hns : (m.sys .scrEl3).getLsbD 0 ∧ (m.sys .scrEl3).getLsbD 10 := by rw [hscr]; decide
  rw [Processor.eret, if_pos hel, if_pos hns, hspsr]
  exact returnTo_masked h31 h27 _

/-- The exception return from EL2. -/
theorem eret_el2 (hel : m.el = 2) (hspsr : m.sys .spsrEl2 = 0x3C5)
    (hhcr : m.sys .hcrEl2 = 0x80000000) :
    ∃ flags, m.eret = some { m with
      el := 1, spsel := true, daif := 15, flags := flags, pc := (m.sys .elrEl2).toNat } := by
  rw [Processor.eret, if_neg (by omega), if_pos hel, hspsr]
  exact returnTo_masked (by rw [hhcr]; decide) (by rw [hhcr]; decide) _

/-- The address of a label fits a register. -/
theorem toNat_sym {l : BootSym} (hl : l ∈ bootText.map Prod.fst) :
    (BitVec.ofNat 64 (g.program.sym l)).toNat = g.program.sym l := by
  obtain ⟨⟨l, is⟩, hmem, rfl⟩ := List.mem_map.mp hl
  obtain ⟨pre, post, htext⟩ := List.append_of_mem hmem
  have hsym : g.program.sym l = g.boot + 4 * (pre.flatMap Prod.snd).length :=
    Program.sym_append (P := g.program) bootText_nodup htext
  have hlen : bootLength = (pre.flatMap Prod.snd).length +
      (((l, is) :: post).flatMap Prod.snd).length := by
    rw [bootLength, htext, List.flatMap_append, List.length_append]
  have hcode := g.code_lt
  show (BitVec.ofNat 64 (g.program.sym l)).toNat = g.program.sym l
  rw [hsym, BitVec.toNat_ofNat, Nat.mod_eq_of_lt (by omega)]

/-- From EL3 to EL1. -/
theorem from_el3 (hel : m.el = 3) (h31 : (m.sys .hcrEl2).getLsbD 31)
    (h27 : (m.sys .hcrEl2).getLsbD 27 = false) (hat : g.program.At m.pc (fromEl3 el1 ++ eretCode))
    (hlt : el1 ∈ bootText.map Prod.fst) :
    ∃ m', g.program.Reaches m m' ∧ Entered m m' ∧ m'.pc = g.program.sym el1 := by
  have hoff : m.mmuOn = false := by rw [Processor.mmuOn, hel]; rfl
  obtain ⟨hat₁, hat₂⟩ := Program.at_append.mp hat
  obtain ⟨x, sys, hexecs, hscr, hspsr, helr, hhcr, hsys, hx⟩ :=
    exec_fromEl3 g.program.sym el1 hel
  have hblock := Program.block_off hoff rfl rfl hat₁ hexecs
  have hoff' : Processor.mmuOn { m with x := x, sys := sys, pc := m.pc + 40 } = false := by
    show (m.el == 1 && _) = false
    rw [hel]
    rfl
  obtain ⟨flags, heret⟩ := eret_el3 (m := { m with x := x, sys := sys, pc := m.pc + 40 }) hel hscr
    hspsr (by rw [← hhcr] at h31; exact h31) (by rw [← hhcr] at h27; exact h27)
  have hreach := hblock.trans (Program.next (Program.direct_of_off hoff') hat₂ heret)
  refine ⟨_, hreach, ⟨rfl, ?_, rfl, rfl, hsys, hx⟩, ?_⟩
  · rw [if_neg (by omega)]
  · show (sys .elrEl3).toNat = _
    rw [helr, toNat_sym g hlt]

/-- From EL2 to EL1. -/
theorem from_el2 (hel : m.el = 2) (hat : g.program.At m.pc (fromEl2 el1 ++ eretCode))
    (hlt : el1 ∈ bootText.map Prod.fst) :
    ∃ m', g.program.Reaches m m' ∧ Entered m m' ∧ m'.pc = g.program.sym el1 := by
  have hoff : m.mmuOn = false := by rw [Processor.mmuOn, hel]; rfl
  obtain ⟨hat₁, hat₂⟩ := Program.at_append.mp hat
  obtain ⟨x, sys, hexecs, hhcr, hspsr, helr, hsys, hx⟩ :=
    exec_fromEl2 g.program.sym el1 hel
  have hblock := Program.block_off hoff rfl rfl hat₁ hexecs
  have hoff' : Processor.mmuOn { m with x := x, sys := sys, pc := m.pc + 40 } = false := by
    show (m.el == 1 && _) = false
    rw [hel]
    rfl
  obtain ⟨flags, heret⟩ := eret_el2 (m := { m with x := x, sys := sys, pc := m.pc + 40 }) hel hspsr hhcr
  have hreach := hblock.trans (Program.next (Program.direct_of_off hoff') hat₂ heret)
  refine ⟨_, hreach, ⟨rfl, ?_, rfl, rfl, hsys, hx⟩, ?_⟩
  · rw [if_neg (by omega)]
  · show (sys .elrEl2).toNat = _
    rw [helr, toNat_sym g hlt]

/-- A way to EL1 after a way that stays where it is. -/
theorem Entered.after {n m' : Processor} (h : Entered n m') (hkept : Kept [.x0] [] m n)
    (hmem : n.mem = m.mem) : Entered m m' where
  el := h.el
  daif := by rw [h.daif, hkept.el, hkept.daif]
  mem := h.mem.trans hmem
  out := h.out.trans hkept.out
  sys r hr := (h.sys r hr).trans (hkept.sys r List.not_mem_nil)
  x r hr := (h.x r hr).trans (hkept.x r fun h0 => hr (List.mem_cons.mpr
    (.inl (List.mem_singleton.mp h0))))

/-- All ways lead to EL1. -/
theorem descend_el1 (h : ColdStart m) (hat : g.program.At m.pc (descend el3 el2 el1))
    (hat₃ : g.program.At (g.program.sym el3) (fromEl3 el1 ++ eretCode))
    (hat₂ : g.program.At (g.program.sym el2) (fromEl2 el1 ++ eretCode))
    (hlt : el1 ∈ bootText.map Prod.fst) :
    ∃ m', g.program.Reaches m m' ∧ Entered m m' ∧ m'.pc = g.program.sym el1 := by
  obtain ⟨n, hbranch, hkept, hmem, hpc⟩ := descend_branch g h.el h.mmuOn hat
  rcases h.el with hel | hel | hel
  -- EL1: a branch, and interrupts stay as they are
  · rw [if_neg (by omega), if_neg (by omega)] at hpc
    have hentered : Entered n n :=
      ⟨hkept.el.trans hel, by rw [hkept.el, if_pos hel], rfl, rfl, fun _ _ => rfl, fun _ _ => rfl⟩
    exact ⟨n, hbranch, hentered.after hkept hmem, hpc⟩
  · rw [if_neg (by omega), if_pos hel] at hpc
    obtain ⟨m', hreach, hentered, hpc'⟩ := from_el2 g (hkept.el.trans hel) (hpc ▸ hat₂) hlt
    exact ⟨m', hbranch.trans hreach, hentered.after hkept hmem, hpc'⟩
  · rw [if_pos hel] at hpc
    obtain ⟨h31, h27⟩ := h.hcr hel
    have hhcr : n.sys .hcrEl2 = m.sys .hcrEl2 := hkept.sys _ List.not_mem_nil
    obtain ⟨m', hreach, hentered, hpc'⟩ := from_el3 g (hkept.el.trans hel) (by rw [hhcr]; exact h31)
      (by rw [hhcr]; exact h27) (hpc ▸ hat₃) hlt
    exact ⟨m', hbranch.trans hreach, hentered.after hkept hmem, hpc'⟩

end Descent

/-! ## CPU 0 -/

section Primary

variable (g : BootImage) {m : Processor} {c : BitVec 64}

/-- The entry keeps the address of the device tree. -/
theorem start_entered (h : ColdStart m) (hpc : m.pc = g.program.sym .start) :
    ∃ m', g.program.Reaches m m' ∧ m'.pc = g.program.sym .el1Start ∧ m'.el = 1 ∧
      m'.daif = (if m.el = 1 then m.daif else 15) ∧ m'.mem = m.mem ∧ m'.out = m.out ∧
      (∀ r : SysReg, r.level = 1 → m'.sys r = m.sys r) ∧
      m'.x .x20 = BitVec.ofNat 64 ((m.x .x0).toNat % 2^32) := by
  have hat : g.program.At m.pc (startCode ++ descend .el3ToEl1 .el2ToEl1 .el1Start) :=
    hpc ▸ at_text g (by decide)
  obtain ⟨hat₁, hat₂⟩ := Program.at_append.mp hat
  have hblock := Program.block_off h.mmuOn rfl rfl hat₁ rfl
  obtain ⟨m', hreach, hentered, hpc'⟩ := descend_el1 g (m := { m.setX .x20
    (BitVec.ofNat 64 ((m.x .x0).toNat % 2^32)) with pc := m.pc + 4 }) ⟨h.el, h.off, h.hcr⟩ hat₂
    (at_text g (by decide)) (at_text g (by decide)) (by decide)
  exact ⟨m', hblock.trans hreach, hpc', hentered.el, hentered.daif, hentered.mem, hentered.out,
    hentered.sys, hentered.x _ (by decide)⟩

/-- The number of a core. -/
def coreId (m : Processor) : BitVec 64 := m.sys .mpidrEl1 &&& 3

/-- `el1_start`: a core in EL1 on its own stack pointer, with its number in `x0`. -/
structure CoreUp (m m' : Processor) : Prop where
  el : m'.el = 1
  off : m'.mmuOn = false
  spsel : m'.spsel = true
  daif : m'.daif = m.daif
  mem : m'.mem = m.mem
  out : m'.out = m.out
  mpidr : m'.sys .mpidrEl1 = m.sys .mpidrEl1
  cpacr : m'.sys .cpacrEl1 = 0x300000
  x0 : m'.x .x0 = m.sys .mpidrEl1 &&& 3
  x : ∀ r ∉ [Gpr.x0, Gpr.x1], m'.x r = m.x r

/-- `SCTLR` is read, without the bits of the MMU and the caches. -/
theorem exec_plainCode (sym : BootSym → ℕ) (hel : m.el = 1) :
    ∃ x, Instr.execs sym m plainCode = some { m with x := x } ∧
      x .x0 = plainSctlr (m.sys .sctlrEl1) ∧ ∀ r ∉ [Gpr.x0, Gpr.x1], x r = m.x r := by
  unfold plainCode
  rw [Instr.execs_cons (exec_mrs _ (by exact hel.ge) _)]
  refine ⟨_, rfl, rfl, fun r hr => ?_⟩
  cases r <;> first | exact absurd (by decide) hr | rfl

/-- The rest of `el1_start`. -/
theorem exec_el1StartCode (sym : BootSym → ℕ) (hel : m.el = 1) :
    ∃ x spsel, Instr.execs sym m el1StartCode = some { m with
      x := x
      spsel := spsel
      sys := Function.update m.sys .cpacrEl1 0x300000 } ∧
      spsel = true ∧ x .x0 = m.sys .mpidrEl1 &&& 3 ∧ ∀ r ∉ [Gpr.x0, Gpr.x1], x r = m.x r := by
  unfold el1StartCode
  rw [Instr.execs_cons rfl, Instr.execs_cons rfl, Instr.execs_cons (exec_msr _ (by exact hel.ge) _),
    Instr.execs_cons rfl, Instr.execs_cons rfl, Instr.execs_cons (exec_msr _ (by exact hel.ge) _),
    Instr.execs_cons (exec_mrs _ (by exact hel.ge) _), Instr.execs_cons rfl]
  refine ⟨_, _, rfl, ?_, ?_, fun r hr => ?_⟩
  · simp only [Processor.setX, Processor.writeSys, Processor.read, Function.update_self]
    decide
  · show Function.update _ _ _ _ = _
    rw [Function.update_self]
    rfl
  · cases r <;> first | exact absurd (by decide) hr | rfl

/-- `el1_start`, up to the branch of CPU 0. -/
theorem el1_start (hel : m.el = 1) (hoff : m.mmuOn = false) (hpc : m.pc = g.program.sym .el1Start) :
    ∃ m', g.program.Reaches m m' ∧ CoreUp m m' ∧
      m'.pc = if m.sys .mpidrEl1 &&& 3 = 0 then g.program.sym .primary else g.program.sym .wait := by
  have hat : g.program.At m.pc (plainCode ++ (sctlrCode ++ (el1StartCode ++ toPrimary))) :=
    hpc ▸ at_text g (by decide)
  obtain ⟨hat₁, hat⟩ := Program.at_append.mp hat
  obtain ⟨hat₂, hat⟩ := Program.at_append.mp hat
  obtain ⟨hat₃, hat₄⟩ := Program.at_append.mp hat
  obtain ⟨x, hexecs, hx0, hx⟩ := exec_plainCode g.program.sym hel
  have hplain := Program.block_off hoff rfl rfl hat₁ hexecs
  have hsctlr := hplain.trans (next_sctlr g hel (Program.direct_of_off hoff) hat₂)
  have hoff' : (m.el == 1 && (x .x0).getLsbD 0) = false := by
    rw [hx0, getLsbD_plainSctlr, Bool.and_false]
  obtain ⟨x', spsel, hexecs', hspsel, hx0', hx'⟩ := exec_el1StartCode (m := { m with
    x := x, sys := Function.update m.sys .sctlrEl1 (x .x0), pc := m.pc + 16 + 4 }) g.program.sym hel
  have hcore := hsctlr.trans (Program.block_off (by exact hoff') rfl rfl hat₃ hexecs')
  have hbranch := hcore.trans (Program.next (Program.direct_of_off (by exact hoff')) hat₄ rfl)
  have hnext : g.program.sym .wait = g.program.sym .el1Start + 56 :=
    Program.sym_next (P := g.program) bootText_nodup ⟨bootText.take 3, bootText.drop 5, rfl⟩
  refine ⟨_, hbranch, ⟨hel, hoff', hspsel, rfl, rfl, rfl, rfl, rfl, hx0', fun r hr => ?_⟩, ?_⟩
  · exact (hx' r hr).trans (hx r hr)
  · show (if x' .x0 = 0 then g.program.sym .primary else m.pc + 16 + 4 + 32 + 4) = _
    have hx0'' : x' .x0 = m.sys .mpidrEl1 &&& 3 := hx0'
    rw [hx0'', hpc, hnext]

/-- The UART that `boot.S` writes to. -/
def bootUart : ℕ := 0x1c00030000

/-- A line with a character. -/
def line (c : BitVec 64) : List (ℕ × BitVec 32) :=
  [(bootUart, c.setWidth 32), (bootUart, 13), (bootUart, 10)]

/-- A store to the UART. -/
theorem exec_strw (sym : BootSym → ℕ) (huart : m.xlate bootUart = some bootUart)
    (hx21 : m.x .x21 = 0x1c00030000) (r : Gpr) :
    (Instr.strw r .x21).exec sym m =
      some { m with out := m.out ++ [(bootUart, (m.x r).setWidth 32)] } := by
  have haddr : (m.x .x21).toNat = bootUart := by rw [hx21]; rfl
  rw [Instr.exec, haddr, huart, Option.map_some]

/-- A character is written. -/
theorem exec_char (sym : BootSym → ℕ) {r : Gpr} (huart : m.xlate bootUart = some bootUart)
    (hx21 : Function.update m.x r c .x21 = 0x1c00030000) (is : BootCode) :
    Instr.execs sym m (.mov r (.imm c) :: .strw r .x21 :: is) = Instr.execs sym
      { m with x := Function.update m.x r c, out := m.out ++ [(bootUart, c.setWidth 32)] } is := by
  rw [Instr.execs_cons rfl, Instr.execs_cons (exec_strw _ (by exact huart) (by exact hx21) _)]
  simp only [Processor.setX, Processor.read, Function.update_self]

/-- A line with a character is written. -/
theorem exec_mark (sym : BootSym → ℕ) {r : Gpr} (hr : r ≠ .x21)
    (huart : m.xlate bootUart = some bootUart) (hx21 : m.x .x21 = 0x1c00030000) (c : BitVec 64) :
    Instr.execs sym m (mark r c) =
      some { m with x := Function.update m.x r 10, out := m.out ++ line c } := by
  have hother : ∀ w : BitVec 64, Function.update m.x r w .x21 = 0x1c00030000 := fun w => by
    rw [Function.update_of_ne hr.symm, hx21]
  unfold mark
  rw [exec_char _ huart (hother c), exec_char _ (by exact huart)
      (by rw [Function.update_idem]; exact hother 13), exec_char _ (by exact huart)
      (by rw [Function.update_idem, Function.update_idem]; exact hother 10)]
  simp only [Instr.execs, List.foldlM_nil, Function.update_idem, List.append_assoc]
  rfl

/-- A line is written where the UART is mapped and the program runs where it is. -/
theorem mark_line {r : Gpr} (hr : r ≠ .x21) (huart : m.xlate bootUart = some bootUart)
    (hx21 : m.x .x21 = 0x1c00030000) (hdirect : g.program.Direct m) {c : BitVec 64}
    (hat : g.program.At m.pc (mark r c)) :
    g.program.Reaches m
      { m with x := Function.update m.x r 10, out := m.out ++ line c, pc := m.pc + 24 } :=
  Program.block_on hdirect rfl rfl hat (exec_mark _ hr huart hx21 c)

/-- What a CPU leaves alone from EL1 on to Rust, other than memory and what it sends. -/
structure Steady (ss : List SysReg) (m m' : Processor) : Prop where
  el : m'.el = m.el
  spsel : m'.spsel = m.spsel
  daif : m'.daif = m.daif
  sys : ∀ r ∉ ss, m'.sys r = m.sys r
  x : ∀ r ∈ [Gpr.x19, Gpr.x20], m'.x r = m.x r

/-- The MMU stays on or off. -/
theorem Steady.mmuOn {m' : Processor} (h : Steady [] m m') : m'.mmuOn = m.mmuOn := by
  rw [Processor.mmuOn, Processor.mmuOn, h.el, h.sys _ List.not_mem_nil]

/-- CPU 0 sets up a stack and writes its first line. -/
theorem primary_start (hoff : m.mmuOn = false) (hpc : m.pc = g.program.sym .primary) :
    ∃ m', g.program.Reaches m m' ∧ Steady [] m m' ∧ m'.pc = g.program.sym .bss ∧ m'.mem = m.mem ∧
      m'.out = m.out ++ line 66 ∧ m'.x .x21 = 0x1c00030000 ∧
      m'.x .x1 = BitVec.ofNat 64 g.bssStart ∧ m'.x .x2 = BitVec.ofNat 64 g.bssEnd := by
  have hat : g.program.At m.pc (primaryCode ++ (mark .x1 66 ++ bssRange)) := hpc ▸ at_text g (by decide)
  obtain ⟨hat₁, hat⟩ := Program.at_append.mp hat
  obtain ⟨hat₂, hat₃⟩ := Program.at_append.mp hat
  have hexecs : Instr.execs g.program.sym m primaryCode =
      some (((m.setX .x1 (BitVec.ofNat 64 g.stackEndPhys)).setSp (BitVec.ofNat 64 g.stackEndPhys)).setX
        .x21 0x1c00030000) := rfl
  have hstack := Program.block_off hoff rfl rfl hat₁ hexecs
  have hmark := hstack.trans (mark_line g (by decide) (Program.xlate_of_off (by exact hoff) _) rfl
    (Program.direct_of_off (by exact hoff)) hat₂)
  have hrange := hmark.trans (Program.block_off (by exact hoff) rfl rfl hat₃ rfl)
  have hnext : g.program.sym .bss = g.program.sym .primary + 44 :=
    Program.sym_next (P := g.program) bootText_nodup ⟨bootText.take 6, bootText.drop 8, rfl⟩
  refine ⟨_, hrange, ⟨rfl, rfl, rfl, fun _ _ => rfl, fun r hr => ?_⟩, ?_, rfl, rfl, rfl, rfl, rfl⟩
  · cases r <;> first | rfl | exact absurd hr (by decide)
  · show m.pc + 12 + 24 + 8 = _
    rw [hpc, hnext]

/-- How many words the loop over `BSS` zeroes. -/
def BootImage.bssWords (g : BootImage) : ℕ := (g.bssEnd - g.bssStart + 7) / 8

/-- The comparison of the loop. -/
theorem bss_ends {k : ℕ} (hk : k ≤ g.bssWords) :
    Cond.hs.holds (.ofSub (BitVec.ofNat 64 (g.bssStart + 8 * k)) (BitVec.ofNat 64 g.bssEnd)) =
      decide (k = g.bssWords) := by
  have hle := g.bss_le
  have hlt := g.bss_lt
  unfold BootImage.bssWords at hk ⊢
  show decide ((BitVec.ofNat 64 g.bssEnd).toNat ≤ (BitVec.ofNat 64 (g.bssStart + 8 * k)).toNat) = _
  rw [BitVec.toNat_ofNat, BitVec.toNat_ofNat]
  apply decide_eq_decide.mpr
  omega

/-- The loop over `BSS`, after a number of rounds. -/
structure Clearing (g : BootImage) (m : Processor) (k : ℕ) (n : Processor) : Prop where
  kept : Kept [.x1] [] m n
  pc : n.pc = g.program.sym .bss
  x1 : n.x .x1 = BitVec.ofNat 64 (g.bssStart + 8 * k)
  x2 : n.x .x2 = BitVec.ofNat 64 g.bssEnd
  mem : n.mem = applyWrites m.mem (fillWords g.bssStart k fun _ => 0)

/-- The loop, instruction by instruction. -/
theorem at_bss : g.program.At (g.program.sym .bss) [.cmp .x1 (.x .x2)] ∧
    g.program.At (g.program.sym .bss + 4) [.bc .hs .bssDone] ∧
    g.program.At (g.program.sym .bss + 8) [.strPost .xzr .x1] ∧
    g.program.At (g.program.sym .bss + 12) [.b .bss] := by
  have hat : g.program.At (g.program.sym .bss) ([.cmp .x1 (.x .x2)] ++ ([.bc .hs .bssDone] ++
      ([.strPost .xzr .x1] ++ [.b .bss]))) := at_text g (by decide)
  simp only [Program.at_append] at hat
  exact hat

/-- The head of a round, which also ends the loop. -/
theorem Clearing.head {k : ℕ} {n : Processor} (h : Clearing g m k n) (hk : k ≤ g.bssWords)
    (hoff : m.mmuOn = false) :
    ∃ n', g.program.Reaches n n' ∧ Kept [.x1] [] m n' ∧ n'.mem = n.mem ∧ n'.x = n.x ∧
      n'.pc = if k = g.bssWords then g.program.sym .bssDone else g.program.sym .bss + 8 := by
  obtain ⟨hat₁, hat₂, -, -⟩ := at_bss g
  have hoffn := h.kept.mmuOn.trans hoff
  have hcmp := Program.block_off hoffn rfl rfl (h.pc ▸ hat₁) rfl
  have hbranch := hcmp.trans (Program.next (Program.direct_of_off hoffn) (h.pc ▸ hat₂) rfl)
  refine ⟨_, hbranch, ⟨h.kept.el, h.kept.spsel, h.kept.daif, h.kept.sp, h.kept.out, h.kept.sys,
    h.kept.x⟩, rfl, rfl, ?_⟩
  show (if Cond.hs.holds (.ofSub (n.x .x1) (n.x .x2)) then g.program.sym .bssDone
    else n.pc + 4 + 4) = _
  rw [h.x1, h.x2, bss_ends g hk, h.pc]
  simp only [decide_eq_true_eq]

/-- A round. -/
theorem Clearing.round {k : ℕ} {n : Processor} (h : Clearing g m k n) (hk : k < g.bssWords)
    (hoff : m.mmuOn = false) : ∃ n', g.program.Reaches n n' ∧ Clearing g m (k + 1) n' := by
  obtain ⟨-, -, hat₃, hat₄⟩ := at_bss g
  obtain ⟨n₁, hhead, hkept, hmem, hx, hpc⟩ := h.head g hk.le hoff
  rw [if_neg hk.ne] at hpc
  have hoff₁ := hkept.mmuOn.trans hoff
  have hexecs : Instr.execs g.program.sym n₁ [.strPost .xzr .x1] = some { n₁ with
      mem := Function.update n₁.mem (n₁.x .x1).toNat (0 : BitVec 64).toNat
      x := Function.update n₁.x .x1 (n₁.x .x1 + 8) } :=
    (Instr.execs_cons (exec_strPost _ hoff₁ _ _)).trans rfl
  have hstore := hhead.trans (Program.block_off hoff₁ rfl rfl (hpc ▸ hat₃) hexecs)
  have hat₄ : g.program.At (n₁.pc + 4) [.b .bss] := by rw [hpc]; exact hat₄
  have hnext := hstore.trans (Program.next (Program.direct_of_off (by exact hoff₁)) hat₄ rfl)
  have hlt := g.bss_lt
  have hword : g.bssStart + 8 * k < 2^64 := by
    unfold BootImage.bssWords at hk
    omega
  refine ⟨_, hnext, hkept.trans (.of_x fun r hr => ?_), rfl, ?_, ?_, ?_⟩
  · cases r <;> first | exact absurd (by decide) hr | rfl
  · show n₁.x .x1 + 8 = _
    rw [hx, h.x1, next_word]
  · show n₁.x .x2 = _
    rw [hx, h.x2]
  · show Function.update n₁.mem (n₁.x .x1).toNat 0 = _
    rw [fillWords_succ, applyWrites_concat, hmem, hx, h.mem, h.x1, BitVec.toNat_ofNat,
      Nat.mod_eq_of_lt hword]

/-- The loop over `BSS`. -/
theorem bss_loop (hoff : m.mmuOn = false) (hpc : m.pc = g.program.sym .bss)
    (hx1 : m.x .x1 = BitVec.ofNat 64 g.bssStart) (hx2 : m.x .x2 = BitVec.ofNat 64 g.bssEnd) :
    ∃ m', g.program.Reaches m m' ∧ Kept [.x1] [] m m' ∧ m'.pc = g.program.sym .bssDone ∧
      m'.mem = applyWrites m.mem (fillWords g.bssStart g.bssWords fun _ => 0) := by
  have hstart : Clearing g m 0 m := ⟨.refl, hpc, hx1, hx2, rfl⟩
  obtain ⟨n, hloop, hn⟩ :=
    Program.loop (fun k hk n (h : Clearing g m k n) => h.round g hk hoff) hstart
  -- the last head finds nothing left
  obtain ⟨m', hend, hkept, hmem, -, hpc'⟩ := hn.head g le_rfl hoff
  rw [if_pos rfl] at hpc'
  exact ⟨m', hloop.trans hend, hkept, hpc', hmem.trans hn.mem⟩

/-- A call of `boot_enable_mmu`. -/
theorem call_mmu (hel : m.el = 1) (hoff : m.mmuOn = false) (hat : g.program.At m.pc callMmu) :
    ∃ m', g.program.Reaches m m' ∧ m'.pc = m.pc + 4 ∧ Mapped g m' ∧ m'.out = m.out ∧
      m'.mem = applyWrites m.mem g.tables.stores ∧ m'.spsel = m.spsel ∧ m'.daif = m.daif ∧
      (∀ r ∉ mmuRegs, m'.sys r = m.sys r) ∧ ∀ r ∉ .x30 :: scratch, m'.x r = m.x r := by
  have hfetch : g.program.fetch m.pc = some (.bl .bootEnableMmu) := hat 0 Nat.one_pos
  have hpc := lt_of_lt_of_le (Program.fetch_bounds hfetch).2 g.code_lt
  have hcall : g.program.Reaches m { m.setX .x30 (BitVec.ofNat 64 (m.pc + 4)) with
      pc := g.program.sym .bootEnableMmu } := Program.next (Program.direct_of_off hoff) hat rfl
  obtain ⟨m', hreach, hkept, hpc', hmem, hmapped⟩ := enable_mmu g (m := { m.setX .x30
    (BitVec.ofNat 64 (m.pc + 4)) with pc := g.program.sym .bootEnableMmu }) hel hoff rfl
  refine ⟨m', hcall.trans hreach, ?_, hmapped, hkept.out, hmem, hkept.spsel, hkept.daif, hkept.sys,
    fun r hr => ?_⟩
  · have hret : m'.pc = (BitVec.ofNat 64 (m.pc + 4)).toNat := hpc'
    rw [hret, BitVec.toNat_ofNat, Nat.mod_eq_of_lt (by omega)]
  · rw [List.mem_cons, not_or] at hr
    exact (hkept.x r hr.2).trans (Function.update_of_ne hr.1 ..)

/-- The UART is mapped. -/
theorem Mapped.xlate_uart {g : BootImage} {m : Processor} (h : Mapped g m) :
    m.xlate bootUart = some bootUart := by
  rw [h.xlate_eq]
  rfl

/-- The vectors are set. -/
theorem exec_vectors (hel : m.el = 1) :
    Instr.execs g.program.sym m vectorsCode = some { m with
      x := Function.update m.x .x1 (BitVec.ofNat 64 (kernelVirtBase + g.vectorTable))
      sys := Function.update m.sys .vbarEl1 (BitVec.ofNat 64 (kernelVirtBase + g.vectorTable)) } := by
  unfold vectorsCode
  rw [Instr.execs_cons rfl, Instr.execs_cons (exec_msr _ (by exact hel.ge) _)]
  rfl

/-- What CPU 0 sends to the UART. -/
def bootLines : List (ℕ × BitVec 32) :=
  line 66 ++ line 98 ++ line 109 ++ line 118 ++ line 115 ++ line 107

/-- The code of CPU 0 once the MMU is on. -/
theorem exec_mappedCode (h : Mapped g m) (hx21 : m.x .x21 = 0x1c00030000) :
    ∃ x, Instr.execs g.program.sym m mappedCode = some { m with
      x := x
      sp := Function.update m.sp (if m.spsel then m.el else 0)
        (BitVec.ofNat 64 (kernelVirtBase + g.stackEnd))
      sys := Function.update m.sys .vbarEl1 (BitVec.ofNat 64 (kernelVirtBase + g.vectorTable))
      out := m.out ++ line 109 ++ line 118 ++ line 115 ++ line 107 } ∧
      x .x0 = m.x .x20 ∧ x .x1 = BitVec.ofNat 64 (kernelVirtBase + g.kernelMain) := by
  have huart := h.xlate_uart
  have hstack : ∀ n : Processor, Instr.execs g.program.sym n stackCode =
      some ((n.setX .x1 (BitVec.ofNat 64 (kernelVirtBase + g.stackEnd))).setSp
        (BitVec.ofNat 64 (kernelVirtBase + g.stackEnd))) := fun _ => rfl
  have harg : ∀ n : Processor, Instr.execs g.program.sym n argCode = some (n.setX .x0 (n.x .x20)) :=
    fun _ => rfl
  unfold mappedCode
  rw [Instr.execs_append (exec_mark _ (by decide) huart hx21 _),
    Instr.execs_append (exec_vectors g (by exact h.el)),
    Instr.execs_append (exec_mark _ (by decide) (by exact huart) (by exact hx21) _),
    Instr.execs_append (hstack _),
    Instr.execs_append (exec_mark _ (by decide) (by exact huart) (by exact hx21) _),
    Instr.execs_append (harg _),
    Instr.execs_append (exec_mark _ (by decide) (by exact huart) (by exact hx21) _)]
  exact ⟨_, rfl, rfl, rfl⟩

/-- The tables are still there. -/
theorem Mapped.congr {m' : Processor} (h : Mapped g m) (hel : m'.el = m.el) (hmem : m'.mem = m.mem)
    (hsys : ∀ r ∈ mmuRegs, m'.sys r = m.sys r) : Mapped g m' where
  el := hel.trans h.el
  on := by rw [hsys _ (by decide)]; exact h.on
  mair := (hsys _ (by decide)).trans h.mair
  tcr := (hsys _ (by decide)).trans h.tcr
  ttbr0 := (hsys _ (by decide)).trans h.ttbr0
  ttbr1 := (hsys _ (by decide)).trans h.ttbr1
  mem a := by rw [hmem]; exact h.mem a

/-- CPU 0 once the MMU is on. -/
theorem primary_mapped (h : Mapped g m) (hspsel : m.spsel = true) (hx21 : m.x .x21 = 0x1c00030000)
    (hat : g.program.At m.pc (mappedCode ++ brX1)) :
    ∃ m', g.program.Reaches m m' ∧ m'.pc = kernelVirtBase + g.kernelMain ∧ Mapped g m' ∧
      m'.mem = m.mem ∧ m'.out = m.out ++ line 109 ++ line 118 ++ line 115 ++ line 107 ∧
      m'.x .x0 = m.x .x20 ∧ m'.spsel = true ∧
      m'.sp 1 = BitVec.ofNat 64 (kernelVirtBase + g.stackEnd) ∧ m'.daif = m.daif ∧
      m'.sys .vbarEl1 = BitVec.ofNat 64 (kernelVirtBase + g.vectorTable) ∧
      ∀ r ≠ .vbarEl1, m'.sys r = m.sys r := by
  obtain ⟨hat₁, hat₂⟩ := Program.at_append.mp hat
  obtain ⟨x, hexecs, hx0, hx1⟩ := exec_mappedCode g h hx21
  have hblock := Program.block_on h.direct rfl rfl hat₁ hexecs
  have hbr := hblock.trans (Program.next (by exact h.direct) hat₂ rfl)
  have hsys : ∀ r ≠ .vbarEl1, Function.update m.sys .vbarEl1
      (BitVec.ofNat 64 (kernelVirtBase + g.vectorTable)) r = m.sys r :=
    fun r hr => Function.update_of_ne hr ..
  refine ⟨_, hbr, ?_, h.congr g rfl rfl fun r hr => hsys r ?_, rfl, rfl, hx0, hspsel, ?_, rfl, rfl,
    hsys⟩
  · show (x .x1).toNat = _
    have hmain := g.main_lt.2
    rw [hx1, BitVec.toNat_ofNat, Nat.mod_eq_of_lt]
    unfold kernelVirtBase
    omega
  · rintro rfl
    exact absurd hr (by decide)
  · show Function.update m.sp (if m.spsel then m.el else 0) _ 1 = _
    rw [if_pos hspsel, h.el, Function.update_self]

/-- The stores of CPU 0. -/
def BootImage.primaryStores (g : BootImage) : List (ℕ × ℕ) :=
  fillWords g.bssStart g.bssWords (fun _ => 0) ++ g.tables.stores

/-- A CPU that has come to Rust, at an address of the kernel's window. -/
structure Arrived (g : BootImage) (entry : ℕ) (m : Processor) : Prop where
  mapped : Mapped g m
  pc : m.pc = kernelVirtBase + entry
  spsel : m.spsel = true
  vbar : m.sys .vbarEl1 = BitVec.ofNat 64 (kernelVirtBase + g.vectorTable)
  cpacr : m.sys .cpacrEl1 = 0x300000

/-- CPU 0 from EL1 on. -/
theorem primary_el1 (hel : m.el = 1) (hoff : m.mmuOn = false) (hspsel : m.spsel = true)
    (hcpacr : m.sys .cpacrEl1 = 0x300000) (hpc : m.pc = g.program.sym .primary) :
    ∃ m', g.program.Reaches m m' ∧ Arrived g g.kernelMain m' ∧ m'.x .x0 = m.x .x20 ∧
      m'.sp 1 = BitVec.ofNat 64 (kernelVirtBase + g.stackEnd) ∧ m'.daif = m.daif ∧
      m'.mem = applyWrites m.mem g.primaryStores ∧ m'.out = m.out ++ bootLines := by
  obtain ⟨m₁, hstart, hsteady₁, hpc₁, hmem₁, hout₁, hx21₁, hx1₁, hx2₁⟩ := primary_start g hoff hpc
  have hoff₁ := hsteady₁.mmuOn.trans hoff
  obtain ⟨m₂, hbss, hkept₂, hpc₂, hmem₂⟩ := bss_loop g hoff₁ hpc₁ hx1₁ hx2₁
  have hoff₂ := hkept₂.mmuOn.trans hoff₁
  have hat : g.program.At m₂.pc (mark .x1 98 ++ (callMmu ++ (mappedCode ++ brX1))) :=
    hpc₂ ▸ at_text g (by decide)
  obtain ⟨hat₁, hat⟩ := Program.at_append.mp hat
  obtain ⟨hat₂, hat₃⟩ := Program.at_append.mp hat
  have hx21₂ : m₂.x .x21 = 0x1c00030000 := (hkept₂.x _ (by decide)).trans hx21₁
  -- with the MMU off the UART is at its physical address, and later the tables have it there too
  have hmark := mark_line g (by decide) (Program.xlate_of_off hoff₂ _) hx21₂
    (Program.direct_of_off hoff₂) hat₁
  obtain ⟨m₃, hcall, hpc₃, hmapped₃, hout₃, hmem₃, hspsel₃, hdaif₃, hsys₃, hx₃⟩ := call_mmu g
    (m := { m₂ with
      x := Function.update m₂.x .x1 10, out := m₂.out ++ line 98, pc := m₂.pc + 24 })
    (hkept₂.el.trans (hsteady₁.el.trans hel)) hoff₂ hat₂
  obtain ⟨m', hmapped, hpc', hmapped', hmem', hout', hx0', hspsel', hsp', hdaif', hvbar', hsys'⟩ :=
    primary_mapped g hmapped₃ (hspsel₃.trans (hkept₂.spsel.trans (hsteady₁.spsel.trans hspsel)))
      ((hx₃ _ (by decide)).trans hx21₂) (hpc₃ ▸ hat₃)
  refine ⟨m', hstart.trans (hbss.trans (hmark.trans (hcall.trans hmapped))),
    ⟨hmapped', hpc', hspsel', hvbar', ?_⟩, ?_, hsp', ?_, ?_, ?_⟩
  · rw [hsys' _ (by decide), hsys₃ _ (by decide)]
    exact (hkept₂.sys _ (by decide)).trans ((hsteady₁.sys _ (by decide)).trans hcpacr)
  · rw [hx0', hx₃ _ (by decide)]
    exact (hkept₂.x _ (by decide)).trans (hsteady₁.x _ (by decide))
  · exact hdaif'.trans (hdaif₃.trans (hkept₂.daif.trans hsteady₁.daif))
  · rw [hmem', hmem₃, BootImage.primaryStores, applyWrites_append, ← hmem₁]
    exact congrArg (applyWrites · g.tables.stores) hmem₂
  · rw [hout', hout₃]
    show m₂.out ++ line 98 ++ _ ++ _ ++ _ ++ _ = _
    rw [hkept₂.out, hout₁]
    simp only [bootLines, List.append_assoc]

/-- Rust is not in the program, so a run ends there. -/
theorem Arrived.stuck {entry : ℕ} (h : Arrived g entry m)
    (hentry : g.boot + 4 * bootLength ≤ entry ∧ entry < 0x3F000000) : g.program.step m = none := by
  have hfetch : g.program.fetch entry = none := by
    cases hf : g.program.fetch entry with
    | none => rfl
    | some i => exact absurd (Program.fetch_bounds hf).2 (not_lt.mpr hentry.1)
  rw [Program.step, h.pc, h.mapped.xlate_window (by omega), Option.bind_some, hfetch, Option.bind_none]

/-- CPU 0 gets from `_start` to `kernel_main`, whatever exception level it starts at and whatever is in
memory. It zeroes `BSS` and builds the tables, and writes no other memory. -/
theorem boot_primary (h : ColdStart m) (hpc : m.pc = g.boot) (hcore : coreId m = 0) :
    ∃ m', g.program.Reaches m m' ∧ (∀ n, g.program.Reaches m n → g.program.Reaches n m') ∧
      Arrived g g.kernelMain m' ∧ m'.x .x0 = BitVec.ofNat 64 ((m.x .x0).toNat % 2^32) ∧
      m'.sp 1 = BitVec.ofNat 64 (kernelVirtBase + g.stackEnd) ∧
      m'.daif = (if m.el = 1 then m.daif else 15) ∧
      m'.mem = applyWrites m.mem g.primaryStores ∧ m'.out = m.out ++ bootLines := by
  obtain ⟨m₁, hentry, hpc₁, hel₁, hdaif₁, hmem₁, hout₁, hsys₁, hx20₁⟩ := start_entered g h hpc
  have hoff₁ : m₁.mmuOn = false := by rw [Processor.mmuOn, hsys₁ _ rfl, h.off, Bool.and_false]
  obtain ⟨m₂, hsetup, hcore₂, hpc₂⟩ := el1_start g hel₁ hoff₁ hpc₁
  rw [hsys₁ _ rfl, if_pos (show m.sys .mpidrEl1 &&& 3 = 0 from hcore)] at hpc₂
  obtain ⟨m', hrest, harrived, hx0', hsp', hdaif', hmem', hout'⟩ :=
    primary_el1 g hcore₂.el hcore₂.off hcore₂.spsel hcore₂.cpacr hpc₂
  have hreach := hentry.trans (hsetup.trans hrest)
  refine ⟨m', hreach, fun n => Program.reaches_of_stuck hreach (harrived.stuck g g.main_lt), harrived,
    ?_, hsp', ?_, ?_, ?_⟩
  · rw [hx0', hcore₂.x _ (by decide), hx20₁]
  · rw [hdaif', hcore₂.daif, hdaif₁]
  · rw [hmem', hcore₂.mem, hmem₁]
  · rw [hout', hcore₂.out, hout₁]

/-- The number of instructions. -/
theorem bootLength_eq : bootLength = 251 := by
  rw [bootLength, List.length_flatMap]
  decide

/-- An image whose code is at 528 KiB, after the tables. -/
def sampleImage : BootImage where
  boot := 0x84000
  tables := sampleBoot
  vectorTable := 0x90000
  kernelMain := 0x91000
  secondaryRustEntry := 0x92000
  secondaryTable := 0xA0000
  secondaryStacks := 0xB0000
  bssStart := 0xA0000
  bssEnd := 0xA0034
  stackEndPhys := 0xD0000
  stackEnd := 0xD0000
  aligned := by decide
  code_lt := by rw [bootLength_eq]; decide
  l0_lt := by decide
  l1_lt := by decide
  l2_lt := by decide
  rp1_lt := by decide
  main_lt := by rw [bootLength_eq]; decide
  entry_lt := by rw [bootLength_eq]; decide
  vector_lt := by decide
  table_lt := by decide
  stacks_lt := by decide
  bss_le := by decide
  bss_lt := by decide
  stack_lt := by decide

/-- A core that firmware starts in EL2. -/
def coldCore (pc : ℕ) (core : BitVec 64) : Processor where
  x _ := 0
  sp _ := 0
  pc := pc
  el := 2
  spsel := true
  daif := 15
  flags := ⟨false, false, false, false⟩
  sys r := if r = .mpidrEl1 then core else 0
  mem _ := 0
  out := []

/-- It starts as it should. -/
theorem coldStart_coldCore (pc : ℕ) (core : BitVec 64) : ColdStart (coldCore pc core) :=
  ⟨.inr (.inl rfl), BitVec.getLsbD_zero, fun h => by cases h⟩

/-- CPU 0 from EL2, on an empty memory. -/
theorem boot_primary_cold : ∃ m', sampleImage.program.Reaches (coldCore 0x84000 0) m' ∧
    m'.pc = 0xFFFF800000091000 ∧ m'.out = bootLines := by
  obtain ⟨m', hreach, -, harrived, -, -, -, -, hout⟩ :=
    boot_primary sampleImage (coldStart_coldCore 0x84000 0) rfl rfl
  exact ⟨m', hreach, harrived.pc, hout⟩

end Primary


/-! ## The other CPUs -/

section Secondary

variable (g : BootImage) {m : Processor}

/-- `secondary_el1_setup`, up to the call. -/
theorem exec_setupCode (hel : m.el = 1) :
    ∃ x spsel sp, Instr.execs g.program.sym m setupCode = some { m with
      x := x
      sp := sp
      spsel := spsel
      sys := Function.update m.sys .cpacrEl1 0x300000 } ∧
      spsel = true ∧ x .x19 = m.sys .mpidrEl1 &&& 3 := by
  unfold setupCode
  rw [Instr.execs_cons rfl, Instr.execs_cons (exec_msr _ (by exact hel.ge) _), Instr.execs_cons rfl,
    Instr.execs_cons rfl, Instr.execs_cons (exec_msr _ (by exact hel.ge) _),
    Instr.execs_cons (exec_mrs _ (by exact hel.ge) _), Instr.execs_cons rfl, Instr.execs_cons rfl,
    Instr.execs_cons rfl, Instr.execs_cons rfl, Instr.execs_cons rfl, Instr.execs_cons rfl,
    Instr.execs_cons rfl, Instr.execs_cons rfl]
  refine ⟨_, _, _, rfl, ?_, rfl⟩
  simp only [Processor.setX, Processor.writeSys, Processor.read, Function.update_self]
  decide

/-- The code after the call. -/
theorem exec_secondaryCode (hel : m.el = 1) :
    ∃ x, Instr.execs g.program.sym m secondaryCode = some { m with
      x := x
      sp := Function.update m.sp (if m.spsel then m.el else 0)
        (BitVec.ofNat 64 (kernelVirtBase + g.secondaryStacks) + m.x .x19 * 0x4000 + 0x4000)
      sys := Function.update m.sys .vbarEl1 (BitVec.ofNat 64 (kernelVirtBase + g.vectorTable)) } ∧
      x .x1 = BitVec.ofNat 64 (kernelVirtBase + g.secondaryRustEntry) := by
  unfold secondaryCode
  rw [Instr.execs_cons rfl, Instr.execs_cons (exec_msr _ (by exact hel.ge) _), Instr.execs_cons rfl,
    Instr.execs_cons rfl, Instr.execs_cons rfl, Instr.execs_cons rfl, Instr.execs_cons rfl,
    Instr.execs_cons rfl, Instr.execs_cons rfl]
  exact ⟨_, rfl, rfl⟩

/-- The stack of a core, from its number. -/
theorem stack_eq (w : BitVec 64) :
    BitVec.ofNat 64 (kernelVirtBase + g.secondaryStacks) + w * 0x4000 + 0x4000 =
      BitVec.ofNat 64 (kernelVirtBase + g.secondaryStacks + 0x4000 * (w.toNat + 1)) := by
  have hsize : (0x4000 : BitVec 64).toNat = 0x4000 := rfl
  apply BitVec.eq_of_toNat_eq
  simp only [BitVec.toNat_add, BitVec.toNat_mul, BitVec.toNat_ofNat, hsize]
  omega

/-- A core from EL1 on. -/
theorem secondary_el1 (hel : m.el = 1) (hoff : m.mmuOn = false)
    (hpc : m.pc = g.program.sym .secondaryEl1Setup) :
    ∃ m', g.program.Reaches m m' ∧ Arrived g g.secondaryRustEntry m' ∧
      m'.sp 1 = BitVec.ofNat 64 (kernelVirtBase + g.secondaryStacks +
        0x4000 * ((m.sys .mpidrEl1 &&& 3).toNat + 1)) ∧
      m'.daif = m.daif ∧ m'.mem = applyWrites m.mem g.tables.stores ∧ m'.out = m.out := by
  have hat : g.program.At m.pc (setupCode ++ (callMmu ++ (secondaryCode ++ brX1))) :=
    hpc ▸ at_text g (by decide)
  obtain ⟨hat₁, hat⟩ := Program.at_append.mp hat
  obtain ⟨hat₂, hat⟩ := Program.at_append.mp hat
  obtain ⟨hat₃, hat₄⟩ := Program.at_append.mp hat
  obtain ⟨x, spsel, sp, hexecs, hspsel, hx19⟩ := exec_setupCode g hel
  have hsetup := Program.block_off hoff rfl rfl hat₁ hexecs
  obtain ⟨m₁, hcall, hpc₁, hmapped₁, hout₁, hmem₁, hspsel₁, hdaif₁, hsys₁, hx₁⟩ := call_mmu g
    (m := { m with
      x := x
      sp := sp
      spsel := spsel
      sys := Function.update m.sys .cpacrEl1 0x300000
      pc := m.pc + 4 * setupCode.length }) hel hoff hat₂
  obtain ⟨x', hexecs', hx1'⟩ := exec_secondaryCode g hmapped₁.el
  have hrest := Program.block_on hmapped₁.direct rfl rfl (hpc₁ ▸ hat₃) hexecs'
  have hbr := hrest.trans (Program.next (by exact hmapped₁.direct) (hpc₁ ▸ hat₄) rfl)
  have hsys : ∀ r ≠ .vbarEl1, Function.update m₁.sys .vbarEl1
      (BitVec.ofNat 64 (kernelVirtBase + g.vectorTable)) r = m₁.sys r :=
    fun r hr => Function.update_of_ne hr ..
  have hspsel' : m₁.spsel = true := hspsel₁.trans hspsel
  refine ⟨_, hsetup.trans (hcall.trans hbr), ⟨hmapped₁.congr g rfl rfl fun r hr => hsys r ?_, ?_,
    hspsel', rfl, ?_⟩, ?_, hdaif₁, hmem₁, hout₁⟩
  · rintro rfl
    exact absurd hr (by decide)
  · show (x' .x1).toNat = _
    have hentry := g.entry_lt.2
    rw [hx1', BitVec.toNat_ofNat, Nat.mod_eq_of_lt]
    unfold kernelVirtBase
    omega
  · have hcpacr : Function.update m.sys .cpacrEl1 0x300000 .cpacrEl1 = (0x300000 : BitVec 64) :=
      Function.update_self ..
    exact (hsys .cpacrEl1 (by decide)).trans ((hsys₁ _ (by decide)).trans hcpacr)
  · show Function.update m₁.sp (if m₁.spsel then m₁.el else 0) _ 1 = _
    have hx19' : m₁.x .x19 = m.sys .mpidrEl1 &&& 3 := (hx₁ _ (by decide)).trans hx19
    rw [if_pos hspsel', hmapped₁.el, Function.update_self, hx19', stack_eq]

/-- A load, with the MMU off. -/
theorem exec_ldr (sym : BootSym → ℕ) (hoff : m.mmuOn = false) (d a i : Gpr) :
    (Instr.ldr d a i).exec sym m =
      some (m.setX d (BitVec.ofNat 64 (m.mem (m.x a + m.x i <<< 3).toNat))) := by
  rw [Instr.exec, Program.xlate_of_off hoff, Option.map_some]

/-- A core reads its entry of `SECONDARY_TABLE`. -/
theorem exec_waitCode (hoff : m.mmuOn = false) (hx0 : (m.x .x0).toNat < 4) :
    ∃ x, Instr.execs g.program.sym m waitCode = some { m with x := x } ∧
      x .x2 = BitVec.ofNat 64 (m.mem (g.secondaryTable + 8 * (m.x .x0).toNat)) ∧
      ∀ r ∉ [Gpr.x1, Gpr.x2, Gpr.x3], x r = m.x r := by
  have htable := g.table_lt
  have haddr : (BitVec.ofNat 64 (kernelVirtBase + g.secondaryTable) - BitVec.ofNat 64 kernelVirtBase +
      m.x .x0 <<< 3).toNat = g.secondaryTable + 8 * (m.x .x0).toNat := by
    rw [BitVec.toNat_add, BitVec.toNat_sub, BitVec.toNat_shiftLeft, BitVec.toNat_ofNat,
      BitVec.toNat_ofNat, Nat.shiftLeft_eq]
    unfold kernelVirtBase
    omega
  unfold waitCode
  rw [Instr.execs_cons rfl, Instr.execs_cons rfl, Instr.execs_cons rfl,
    Instr.execs_cons (exec_ldr _ (by exact hoff) _ _ _)]
  refine ⟨_, rfl, ?_, fun r hr => ?_⟩
  · rw [← haddr]
    rfl
  · cases r <;> first | exact absurd (by decide) hr | rfl

/-- A core that waits looks at its entry of `SECONDARY_TABLE`, and sleeps as long as nothing is there. -/
theorem wait_looks (hoff : m.mmuOn = false) (hpc : m.pc = g.program.sym .wait)
    (hx0 : (m.x .x0).toNat < 4) :
    ∃ m', g.program.Reaches m m' ∧ Kept [.x1, .x2, .x3] [] m m' ∧ m'.mem = m.mem ∧
      m'.pc = if BitVec.ofNat 64 (m.mem (g.secondaryTable + 8 * (m.x .x0).toNat)) = 0 then
        g.program.sym .sleep else g.program.sym .secondaryEl1Setup := by
  have hat : g.program.At m.pc (waitCode ++ ([.cbz .x2 .sleep] ++ [.b .secondaryEl1Setup])) :=
    hpc ▸ at_text g (by decide)
  obtain ⟨hat₁, hat⟩ := Program.at_append.mp hat
  obtain ⟨hat₂, hat₃⟩ := Program.at_append.mp hat
  obtain ⟨x, hexecs, hx2, hx⟩ := exec_waitCode g hoff hx0
  have hread := Program.block_off hoff rfl rfl hat₁ hexecs
  have hbranch := hread.trans (Program.next (Program.direct_of_off (by exact hoff)) hat₂ rfl)
  by_cases hempty : BitVec.ofNat 64 (m.mem (g.secondaryTable + 8 * (m.x .x0).toNat)) = 0
  · exact ⟨_, hbranch, .of_x hx, rfl, (if_pos (hx2.trans hempty)).trans (if_pos hempty).symm⟩
  · have hpc' : (if x .x2 = 0 then g.program.sym .sleep else m.pc + 16 + 4) = m.pc + 16 + 4 :=
      if_neg (by rw [hx2]; exact hempty)
    have hb := hbranch.trans (Program.next (Program.direct_of_off (by exact hoff))
      (show g.program.At _ [.b .secondaryEl1Setup] from hpc'.symm ▸ hat₃) rfl)
    exact ⟨_, hb, .of_x hx, rfl, (if_neg hempty).symm⟩

/-- It wakes up with an event, and looks again. -/
theorem sleep_wakes (hoff : m.mmuOn = false) (hpc : m.pc = g.program.sym .sleep) :
    ∃ m', g.program.Reaches m m' ∧ Kept [] [] m m' ∧ m'.mem = m.mem ∧
      m'.pc = g.program.sym .wait := by
  have hat : g.program.At m.pc ([.wfe] ++ [.b .wait]) := hpc ▸ at_text g (by decide)
  obtain ⟨hat₁, hat₂⟩ := Program.at_append.mp hat
  have hwfe := Program.block_off hoff rfl rfl hat₁ rfl
  have hb := hwfe.trans (Program.next (Program.direct_of_off (by exact hoff)) hat₂ rfl)
  exact ⟨_, hb, .of_x fun _ _ => rfl, rfl, rfl⟩

/-- A core that waits for its entry, and has changed nothing. -/
structure Waiting (g : BootImage) (m n : Processor) : Prop where
  off : n.mmuOn = false
  pc : n.pc = g.program.sym .wait
  x0 : n.x .x0 = coreId m
  mem : n.mem = m.mem
  out : n.out = m.out

/-- The number of a core is below 4. -/
theorem coreId_lt (m : Processor) : (coreId m).toNat < 4 := by
  rw [coreId, BitVec.toNat_and]
  exact lt_of_le_of_lt Nat.and_le_right (by decide)

/-- A round of the wait, by way of `wfe`. -/
theorem Waiting.round {n : Processor} (h : Waiting g m n)
    (hempty : BitVec.ofNat 64 (m.mem (g.secondaryTable + 8 * (coreId m).toNat)) = 0) :
    ∃ s, g.program.Reaches n s ∧ s ≠ n ∧ ∃ n', g.program.Reaches s n' ∧ Waiting g m n' := by
  obtain ⟨s, hlook, hkept, hmem, hpc⟩ := wait_looks g h.off h.pc (by rw [h.x0]; exact coreId_lt m)
  rw [h.x0, h.mem, if_pos hempty] at hpc
  have hoff := hkept.mmuOn.trans h.off
  obtain ⟨n', hwake, hkept', hmem', hpc'⟩ := sleep_wakes g hoff hpc
  have hnext : g.program.sym .sleep = g.program.sym .wait + 24 :=
    Program.sym_next (P := g.program) bootText_nodup ⟨bootText.take 4, bootText.drop 6, rfl⟩
  refine ⟨s, hlook, ?_, n', hwake, hkept'.mmuOn.trans hoff, hpc', ?_, ?_, ?_⟩
  · rintro rfl
    have hwait := h.pc
    omega
  · rw [hkept'.x _ List.not_mem_nil, hkept.x _ (by decide), h.x0]
  · rw [hmem', hmem, h.mem]
  · rw [hkept'.out, hkept.out, h.out]

/-- A core that is started at `secondary_start`. -/
theorem secondary_entered (h : ColdStart m) (hpc : m.pc = g.program.sym .secondaryStart) :
    ∃ m', g.program.Reaches m m' ∧ Entered m m' ∧ m'.pc = g.program.sym .secondaryEl1Setup := by
  have hat : g.program.At m.pc (descend .secondaryEl3ToEl1 .secondaryEl2ToEl1 .secondaryEl1Setup) :=
    hpc ▸ at_text g (by decide)
  exact descend_el1 g h hat (at_text g (by decide)) (at_text g (by decide)) (by decide)

/-- A core that is started at `_start` comes to wait. -/
theorem comes_to_wait (h : ColdStart m) (hpc : m.pc = g.boot) (hcore : coreId m ≠ 0) :
    ∃ n, g.program.Reaches m n ∧ Waiting g m n ∧ n.el = 1 ∧
      n.daif = (if m.el = 1 then m.daif else 15) ∧ coreId n = coreId m := by
  obtain ⟨m₁, hstart, hpc₁, hel₁, hdaif₁, hmem₁, hout₁, hsys₁, -⟩ := start_entered g h hpc
  have hoff₁ : m₁.mmuOn = false := by rw [Processor.mmuOn, hsys₁ _ rfl, h.off, Bool.and_false]
  obtain ⟨n, hsetup, hn, hpcn⟩ := el1_start g hel₁ hoff₁ hpc₁
  rw [hsys₁ _ rfl, if_neg (show ¬m.sys .mpidrEl1 &&& 3 = 0 from hcore)] at hpcn
  refine ⟨n, hstart.trans hsetup, ⟨hn.off, hpcn, ?_, hn.mem.trans hmem₁, hn.out.trans hout₁⟩, hn.el,
    hn.daif.trans hdaif₁, ?_⟩
  · rw [hn.x0, hsys₁ _ rfl, coreId]
  · rw [coreId, hn.mpidr, hsys₁ _ rfl, coreId]

/-- A core that is started at `_start`, and released there. -/
theorem released (h : ColdStart m) (hpc : m.pc = g.boot) (hcore : coreId m ≠ 0)
    (hentry : BitVec.ofNat 64 (m.mem (g.secondaryTable + 8 * (coreId m).toNat)) ≠ 0) :
    ∃ m', g.program.Reaches m m' ∧ m'.pc = g.program.sym .secondaryEl1Setup ∧ m'.el = 1 ∧
      m'.mmuOn = false ∧ m'.daif = (if m.el = 1 then m.daif else 15) ∧ m'.mem = m.mem ∧
      m'.out = m.out ∧ coreId m' = coreId m := by
  obtain ⟨n, hn, hwaiting, hel, hdaif, hcore'⟩ := comes_to_wait g h hpc hcore
  obtain ⟨m', hlook, hkept, hmem', hpc'⟩ :=
    wait_looks g hwaiting.off hwaiting.pc (by rw [hwaiting.x0]; exact coreId_lt m)
  rw [hwaiting.x0, hwaiting.mem, if_neg hentry] at hpc'
  refine ⟨m', hn.trans hlook, hpc', hkept.el.trans hel, hkept.mmuOn.trans hwaiting.off,
    hkept.daif.trans hdaif, hmem'.trans hwaiting.mem, hkept.out.trans hwaiting.out, ?_⟩
  rw [← hcore', coreId, coreId, hkept.sys _ List.not_mem_nil]

/-- The other CPUs get to `secondary_rust_entry`, from `secondary_start` or, once they are released,
from `_start`. They build the tables again, and write no other memory. -/
theorem boot_secondary (h : ColdStart m)
    (hpc : m.pc = g.program.sym .secondaryStart ∨ m.pc = g.boot ∧ coreId m ≠ 0 ∧
      BitVec.ofNat 64 (m.mem (g.secondaryTable + 8 * (coreId m).toNat)) ≠ 0) :
    ∃ m', g.program.Reaches m m' ∧ (∀ n, g.program.Reaches m n → g.program.Reaches n m') ∧
      Arrived g g.secondaryRustEntry m' ∧
      m'.sp 1 = BitVec.ofNat 64 (kernelVirtBase + g.secondaryStacks +
        0x4000 * ((coreId m).toNat + 1)) ∧
      m'.daif = (if m.el = 1 then m.daif else 15) ∧
      m'.mem = applyWrites m.mem g.tables.stores ∧ m'.out = m.out := by
  obtain ⟨n, hentry, hpcn, hel, hoff, hdaif, hmem, hout, hcore⟩ : ∃ n, g.program.Reaches m n ∧
      n.pc = g.program.sym .secondaryEl1Setup ∧ n.el = 1 ∧ n.mmuOn = false ∧
      n.daif = (if m.el = 1 then m.daif else 15) ∧ n.mem = m.mem ∧ n.out = m.out ∧
      coreId n = coreId m := by
    -- both ways meet in `secondary_el1_setup`
    rcases hpc with hpc | ⟨hpc, hcore, hfilled⟩
    · obtain ⟨n, hreach, hn, hpcn⟩ := secondary_entered g h hpc
      have hoff : n.mmuOn = false := by rw [Processor.mmuOn, hn.sys _ rfl, h.off, Bool.and_false]
      exact ⟨n, hreach, hpcn, hn.el, hoff, hn.daif, hn.mem, hn.out, by
        rw [coreId, hn.sys _ rfl, coreId]⟩
    · exact released g h hpc hcore hfilled
  obtain ⟨m', hrest, harrived, hsp', hdaif', hmem', hout'⟩ := secondary_el1 g hel hoff hpcn
  have hreach := hentry.trans hrest
  refine ⟨m', hreach, fun n => Program.reaches_of_stuck hreach (harrived.stuck g g.entry_lt), harrived,
    ?_, hdaif'.trans hdaif, by rw [hmem', hmem], hout'.trans hout⟩
  rw [hsp', ← hcore, coreId]

/-- Core 1 from EL2, at `secondary_start`. -/
theorem boot_secondary_cold : ∃ m', sampleImage.program.Reaches
      (coldCore (sampleImage.program.sym .secondaryStart) 1) m' ∧
    m'.pc = 0xFFFF800000092000 ∧ m'.sp 1 = 0xFFFF8000000B8000 := by
  obtain ⟨m', hreach, -, harrived, hsp, -, -, -⟩ :=
    boot_secondary sampleImage (coldStart_coldCore (sampleImage.program.sym .secondaryStart) 1) (.inl rfl)
  exact ⟨m', hreach, harrived.pc, hsp⟩

end Secondary

end Ralix.Arch.BootAsm
