import Ralix.Arch.BootCode

/-!
# `boot_enable_mmu` runs

The instructions of `boot_enable_mmu`, block by block. They make the stores of `BootTables.stores` in
order (`build_tables`) and then turn the MMU on, so that `translate_boot` tells where the code goes on
(`turn_on`). `Kept` is what a block leaves alone.
-/

namespace Ralix.Arch.BootAsm

open Lib Lib.Assembly Mm

/-- What code leaves alone that writes to memory, and to some registers. -/
structure Kept (rs : List Gpr) (ss : List SysReg) (m m' : Processor) : Prop where
  el : m'.el = m.el
  spsel : m'.spsel = m.spsel
  daif : m'.daif = m.daif
  sp : m'.sp = m.sp
  out : m'.out = m.out
  sys : ∀ r ∉ ss, m'.sys r = m.sys r
  x : ∀ r ∉ rs, m'.x r = m.x r

namespace Kept

variable {rs : List Gpr} {ss : List SysReg} {m m' m'' : Processor}

/-- No code. -/
theorem refl : Kept rs ss m m := ⟨rfl, rfl, rfl, rfl, rfl, fun _ _ => rfl, fun _ _ => rfl⟩

/-- Code after code. -/
theorem trans (h : Kept rs ss m m') (h' : Kept rs ss m' m'') : Kept rs ss m m'' where
  el := h'.el.trans h.el
  spsel := h'.spsel.trans h.spsel
  daif := h'.daif.trans h.daif
  sp := h'.sp.trans h.sp
  out := h'.out.trans h.out
  sys r hr := (h'.sys r hr).trans (h.sys r hr)
  x r hr := (h'.x r hr).trans (h.x r hr)

/-- Code that writes to general registers, flags and memory. -/
theorem of_x {x : Gpr → BitVec 64} {pc : ℕ} {flags : Flags} {mem : PhysMem}
    (h : ∀ r ∉ rs, x r = m.x r) :
    Kept rs ss m { m with x := x, pc := pc, flags := flags, mem := mem } :=
  ⟨rfl, rfl, rfl, rfl, rfl, fun _ _ => rfl, h⟩

/-- The MMU stays on or off. -/
theorem mmuOn (h : Kept rs [] m m') : m'.mmuOn = m.mmuOn := by
  rw [Processor.mmuOn, Processor.mmuOn, h.el, h.sys _ List.not_mem_nil]

/-- Code that writes no system register. -/
theorem with_sys (h : Kept rs [] m m') : Kept rs ss m m' :=
  ⟨h.el, h.spsel, h.daif, h.sp, h.out, fun r _ => h.sys r List.not_mem_nil, h.x⟩

end Kept

/-- The registers of `boot_enable_mmu`. -/
def scratch : List Gpr := [.x0, .x1, .x2, .x3, .x4, .x5, .x6, .x7]

/-- One more store of a loop. -/
theorem fillWords_succ {α : Type} (base n : ℕ) (f : ℕ → α) :
    fillWords base (n + 1) f = fillWords base n f ++ [(base + 8 * n, f n)] := by
  rw [fillWords, List.range_succ, List.map_append]
  rfl

/-- One store. -/
theorem applyWrites_one (mem : PhysMem) (addr v : ℕ) :
    applyWrites mem [(addr, v)] = Function.update mem addr v := rfl

/-- A store of a loop, with the MMU off. -/
theorem exec_strPost (sym : BootSym → ℕ) {m : Processor} (hoff : m.mmuOn = false) (w : Operand)
    (a : Gpr) : (Instr.strPost w a).exec sym m =
      some { m with
        mem := Function.update m.mem (m.x a).toNat (m.read w).toNat
        x := Function.update m.x a (m.x a + 8) } := by
  rw [Instr.exec, Processor.store, Program.xlate_of_off hoff]
  rfl

/-- A store to an address. -/
theorem exec_str (sym : BootSym → ℕ) {m : Processor} (hoff : m.mmuOn = false) (w : Operand)
    (a : Gpr) : (Instr.str w a).exec sym m =
      some { m with mem := Function.update m.mem (m.x a).toNat (m.read w).toNat } := by
  rw [Instr.exec, Processor.store, Program.xlate_of_off hoff]
  rfl

/-- A store to a word of a table. -/
theorem exec_strIdx (sym : BootSym → ℕ) {m : Processor} (hoff : m.mmuOn = false) (w : Operand)
    (a i : Gpr) : (Instr.strIdx w a i).exec sym m =
      some { m with
        mem := Function.update m.mem (m.x a + m.x i <<< 3).toNat (m.read w).toNat } := by
  rw [Instr.exec, Processor.store, Program.xlate_of_off hoff]
  rfl

section Tables

variable (g : BootImage) {m : Processor} {base : ℕ}

/-- A block of `boot.S` is at its label. -/
theorem at_text {l : BootSym} {is : BootCode} (h : (l, is) ∈ bootText) :
    g.program.At (g.program.sym l) is :=
  Program.at_label (P := g.program) bootText_nodup h

/-- A number of rounds that are left. -/
theorem rounds_left {k : ℕ} (hk : k < 512) :
    BitVec.ofNat 64 (512 - k) - 1 = BitVec.ofNat 64 (512 - (k + 1)) := by
  have hone : (1 : BitVec 64).toNat = 1 := rfl
  apply BitVec.eq_of_toNat_eq
  simp only [BitVec.toNat_sub, BitVec.toNat_ofNat, hone]
  omega

/-- The next word. -/
theorem next_word (base k : ℕ) :
    BitVec.ofNat 64 (base + 8 * k) + 8 = BitVec.ofNat 64 (base + 8 * (k + 1)) := by
  have height : (8 : BitVec 64).toNat = 8 := rfl
  apply BitVec.eq_of_toNat_eq
  simp only [BitVec.toNat_add, BitVec.toNat_ofNat, height]
  omega

/-- A loop goes on if a round is left. -/
theorem goes_on {k : ℕ} (hk : k < 512) :
    Cond.ne.holds (.ofSub (BitVec.ofNat 64 (512 - k)) 1) = decide (k + 1 < 512) := by
  show (!(BitVec.ofNat 64 (512 - k) == 1)) = _
  have hone : BitVec.ofNat 64 (512 - k) = 1 ↔ k + 1 = 512 := by
    rw [← BitVec.toNat_inj, BitVec.toNat_ofNat]
    show (512 - k) % 2^64 = 1 ↔ _
    omega
  rw [Bool.eq_iff_iff, Bool.not_eq_true', beq_eq_false_iff_ne, ne_eq, hone, decide_eq_true_eq]
  omega

/-- A loop that zeroes a table. -/
theorem zero_loop {l : BootSym} (hat : g.program.At (g.program.sym l) (zeroLoop l))
    (hbase : base < 0x3F000000) (hoff : m.mmuOn = false) (hpc : m.pc = g.program.sym l)
    (hx0 : m.x .x0 = BitVec.ofNat 64 base) (hx1 : m.x .x1 = 0) (hx2 : m.x .x2 = 512) :
    ∃ m', g.program.Reaches m m' ∧ Kept scratch [] m m' ∧ m'.pc = g.program.sym l + 12 ∧
      m'.x .x1 = 0 ∧ m'.mem = applyWrites m.mem (fillWords base 512 fun _ => 0) := by
  -- after `k` rounds, where the last one leaves the loop
  let S : ℕ → Processor → Prop := fun k n => Kept scratch [] m n ∧
    n.pc = (if k < 512 then g.program.sym l else g.program.sym l + 12) ∧
    n.x .x0 = BitVec.ofNat 64 (base + 8 * k) ∧ n.x .x1 = 0 ∧ n.x .x2 = BitVec.ofNat 64 (512 - k) ∧
    n.mem = applyWrites m.mem (fillWords base k fun _ => 0)
  have hround : ∀ k < 512, ∀ n, S k n → ∃ n', g.program.Reaches n n' ∧ S (k + 1) n' := by
    rintro k hk n ⟨hkept, hpcn, hn0, hn1, hn2, hmem⟩
    rw [if_pos hk] at hpcn
    have hoffn : n.mmuOn = false := hkept.mmuOn.trans hoff
    obtain ⟨hat₁, hat₂⟩ :
        g.program.At (g.program.sym l) [.strPost (.x .x1) .x0, .subs .x2 .x2 (.imm 1)] ∧
          g.program.At (g.program.sym l + 8) [.bc .ne l] := Program.at_append.mp hat
    -- a round is two instructions and the branch back
    have hexecs : Instr.execs g.program.sym n
        [.strPost (.x .x1) .x0, .subs .x2 .x2 (.imm 1)] = some { n with
          mem := Function.update n.mem (n.x .x0).toNat (n.x .x1).toNat
          x := Function.update (Function.update n.x .x0 (n.x .x0 + 8)) .x2 (n.x .x2 - 1)
          flags := .ofSub (n.x .x2) 1 } := by
      rw [Instr.execs, List.foldlM_cons, exec_strPost _ hoffn]
      rfl
    have hblock := Program.block_off hoffn rfl rfl (hpcn ▸ hat₁) hexecs
    have hnext := hblock.trans (Program.next (Program.direct_of_off hoffn) (hpcn ▸ hat₂) rfl)
    refine ⟨_, hnext, ?_, ?_, ?_, ?_, ?_, ?_⟩
    · exact hkept.trans (.of_x fun r hr => by
        cases r <;> first | exact absurd (by decide) hr | rfl)
    · show (if Cond.ne.holds (.ofSub (n.x .x2) 1) then g.program.sym l else _) = _
      rw [hn2, goes_on hk, hpcn]
      by_cases hlast : k + 1 < 512 <;> simp [hlast]
    · show n.x .x0 + 8 = _
      rw [hn0, next_word]
    · exact hn1
    · show n.x .x2 - 1 = _
      rw [hn2, rounds_left hk]
    · show Function.update n.mem (n.x .x0).toNat (n.x .x1).toNat = _
      rw [fillWords_succ, applyWrites_concat, hmem, hn0, hn1, BitVec.toNat_ofNat,
        Nat.mod_eq_of_lt (by omega)]
      rfl
  have hstart : S 0 m := ⟨.refl, hpc, hx0, hx1, hx2, rfl⟩
  obtain ⟨m', hreach, hkept, hpc', -, hx1', -, hmem⟩ := Program.loop hround hstart
  exact ⟨m', hreach, hkept, hpc', hx1', hmem⟩

/-- The offset of a block. -/
theorem toNat_shift {k : ℕ} (hk : k < 512) : (BitVec.ofNat 64 k <<< 21).toNat = k <<< 21 := by
  rw [BitVec.toNat_shiftLeft, BitVec.toNat_ofNat, Nat.mod_eq_of_lt (by omega : k < 2^64),
    Nat.shiftLeft_eq, Nat.mod_eq_of_lt (by omega)]

/-- A number of rounds is that of the register. -/
theorem add_one (k : ℕ) : BitVec.ofNat 64 k + 1 = BitVec.ofNat 64 (k + 1) := by
  have hone : (1 : BitVec 64).toNat = 1 := rfl
  apply BitVec.eq_of_toNat_eq
  simp only [BitVec.toNat_add, BitVec.toNat_ofNat, hone]
  omega

/-- The comparison of the loop over the first GiB. -/
theorem lt_peripherals {k : ℕ} (hk : k < 512) :
    Cond.lt.holds (.ofSub (BitVec.ofNat 64 k) 0x1F8) = decide (k < 0x1F8) := by
  have hk' : (BitVec.ofNat 64 k).toInt = k := by
    rw [BitVec.toInt_eq_toNat_of_lt (by rw [BitVec.toNat_ofNat]; omega), BitVec.toNat_ofNat,
      Nat.mod_eq_of_lt (by omega)]
  have hbase : (0x1F8 : BitVec 64).toInt = 0x1F8 := rfl
  rw [Cond.holds_lt, hk', hbase]
  apply decide_eq_decide.mpr
  omega

/-- The start of a round of the loop over the first GiB, once it is known where it goes. -/
theorem exec_fillHead (sym : BootSym → ℕ) (m : Processor) : Instr.execs sym m fillHead =
    some { (m.setX .x5 (m.x .x3 <<< 21)).setX .x6 0x705 with flags := .ofSub (m.x .x3) 0x1F8 } := by
  rfl

/-- The start of a round of the loop over the first GiB: the flags of the descriptor are those of
`bootBlock`. -/
theorem fill_head {k : ℕ} (hk : k < 512) (hoff : m.mmuOn = false)
    (hpc : m.pc = g.program.sym .fillL2) (hx3 : m.x .x3 = BitVec.ofNat 64 k) :
    ∃ m', g.program.Reaches m m' ∧ Kept scratch [] m m' ∧ m'.pc = g.program.sym .storeL2 ∧
      m'.mem = m.mem ∧ m'.x .x0 = m.x .x0 ∧ m'.x .x3 = m.x .x3 ∧ m'.x .x4 = m.x .x4 ∧
      m'.x .x7 = m.x .x7 ∧ m'.x .x5 = BitVec.ofNat 64 k <<< 21 ∧
      m'.x .x6 = BitVec.ofNat 64 (if k < 0x1F8 then 0x705 else 0x401) := by
  have hat : g.program.At m.pc (fillHead ++ (fillBranch ++ fillDevice)) :=
    hpc ▸ at_text g (by decide)
  obtain ⟨hat₁, hat⟩ := Program.at_append.mp hat
  obtain ⟨hat₂, hat₃⟩ := Program.at_append.mp hat
  have hblock := Program.block_off hoff rfl rfl hat₁ (exec_fillHead _ _)
  have hnext : g.program.sym .storeL2 = g.program.sym .fillL2 + 20 :=
    Program.sym_next (P := g.program) bootText_nodup ⟨bootText.take 19, bootText.drop 21, rfl⟩
  have hlt : Cond.lt.holds (.ofSub (m.x .x3) 0x1F8) = decide (k < 0x1F8) := by
    rw [hx3, lt_peripherals hk]
  have hbranch := hblock.trans (Program.next (Program.direct_of_off hoff) hat₂ rfl)
  -- the peripherals go through one instruction more
  by_cases hram : k < 0x1F8
  · refine ⟨_, hbranch, ?_, ?_, ?_, ?_, ?_, ?_, ?_, ?_, ?_⟩
    · exact .of_x fun r hr => by
        cases r <;> first | exact absurd (by decide) hr | rfl
    · exact if_pos (hlt.trans (decide_eq_true hram))
    · rfl
    · rfl
    · rfl
    · rfl
    · rfl
    · show m.x .x3 <<< 21 = _
      rw [hx3]
    · rw [if_pos hram]
      rfl
  · have hpc' : (if Cond.lt.holds (.ofSub (m.x .x3) 0x1F8) then g.program.sym .storeL2
        else m.pc + 12 + 4) = m.pc + 16 := if_neg (by rw [hlt]; simpa using hram)
    have hdevice := hbranch.trans (Program.block_off (P := g.program) hoff rfl rfl
      (show g.program.At _ fillDevice from hpc'.symm ▸ hat₃) rfl)
    refine ⟨_, hdevice, ?_, ?_, ?_, ?_, ?_, ?_, ?_, ?_, ?_⟩
    · exact .of_x fun r hr => by
        cases r <;> first | exact absurd (by decide) hr | rfl
    · show (if Cond.lt.holds (.ofSub (m.x .x3) 0x1F8) then g.program.sym .storeL2
        else m.pc + 12 + 4) + 4 = _
      rw [hpc', hnext, hpc]
    · rfl
    · rfl
    · rfl
    · rfl
    · rfl
    · show m.x .x3 <<< 21 = _
      rw [hx3]
    · rw [if_neg hram]
      rfl

/-- A loop that fills a table with blocks, after a number of rounds. -/
structure Filling (m : Processor) (base : ℕ) (f : ℕ → ℕ) (k : ℕ) (n : Processor) : Prop where
  kept : Kept scratch [] m n
  x0 : n.x .x0 = BitVec.ofNat 64 (base + 8 * k)
  x3 : n.x .x3 = BitVec.ofNat 64 k
  x4 : n.x .x4 = BitVec.ofNat 64 (512 - k)
  x7 : n.x .x7 = m.x .x7
  mem : n.mem = applyWrites m.mem (fillWords base k f)

/-- The stores of such a loop, with the MMU off. -/
theorem exec_fillTail (sym : BootSym → ℕ) {m : Processor} (hoff : m.mmuOn = false) :
    Instr.execs sym m fillTail = some { m with
      mem := Function.update m.mem (m.x .x0).toNat (m.x .x6 ||| m.x .x5).toNat
      x := Function.update (Function.update (Function.update (Function.update m.x .x6
        (m.x .x6 ||| m.x .x5)) .x0 (m.x .x0 + 8)) .x3 (m.x .x3 + 1)) .x4 (m.x .x4 - 1)
      flags := .ofSub (m.x .x4) 1 } := by
  have hoff' : (m.setX .x6 (m.x .x6 ||| m.x .x5)).mmuOn = false := hoff
  exact (Instr.execs_cons rfl).trans (Instr.execs_cons (exec_strPost _ hoff' _ _))

/-- The end of a round of such a loop. -/
theorem Filling.tail {f : ℕ → ℕ} {k : ℕ} {l : BootSym} {n : Processor} (hfill : Filling m base f k n)
    (hk : k < 512) (hbase : base < 0x3F000000) (hoff : m.mmuOn = false)
    (hat : g.program.At n.pc (fillTail ++ [.bc .ne l]))
    (hword : (n.x .x6 ||| n.x .x5).toNat = f k) :
    ∃ n', g.program.Reaches n n' ∧ Filling m base f (k + 1) n' ∧
      n'.pc = if k + 1 < 512 then g.program.sym l else n.pc + 20 := by
  have hoffn : n.mmuOn = false := hfill.kept.mmuOn.trans hoff
  obtain ⟨hat₁, hat₂⟩ := Program.at_append.mp hat
  have hblock := Program.block_off hoffn rfl rfl hat₁ (exec_fillTail _ hoffn)
  have hnext := hblock.trans (Program.next (Program.direct_of_off hoffn) hat₂ rfl)
  refine ⟨_, hnext, ⟨?_, ?_, ?_, ?_, ?_, ?_⟩, ?_⟩
  · exact hfill.kept.trans (.of_x fun r hr => by
      cases r <;> first | exact absurd (by decide) hr | rfl)
  · show n.x .x0 + 8 = _
    rw [hfill.x0, next_word]
  · show n.x .x3 + 1 = _
    rw [hfill.x3, add_one]
  · show n.x .x4 - 1 = _
    rw [hfill.x4, rounds_left hk]
  · exact hfill.x7
  · show Function.update n.mem (n.x .x0).toNat (n.x .x6 ||| n.x .x5).toNat = _
    rw [fillWords_succ, applyWrites_concat, hword, hfill.mem, hfill.x0, BitVec.toNat_ofNat,
      Nat.mod_eq_of_lt (by omega)]
  · show (if Cond.ne.holds (.ofSub (n.x .x4) 1) then g.program.sym l else n.pc + 16 + 4) = _
    rw [hfill.x4, goes_on hk]
    by_cases hlast : k + 1 < 512 <;> simp [hlast]

/-- The loop over the first GiB. -/
theorem fill_loop (hoff : m.mmuOn = false) (hbase : base < 0x3F000000)
    (hpc : m.pc = g.program.sym .fillL2) (hfill : Filling m base bootBlock 0 m) :
    ∃ m', g.program.Reaches m m' ∧ Filling m base bootBlock 512 m' ∧
      m'.pc = g.program.sym .storeL2 + 20 := by
  let S : ℕ → Processor → Prop := fun k n => Filling m base bootBlock k n ∧
    n.pc = if k < 512 then g.program.sym .fillL2 else g.program.sym .storeL2 + 20
  have hround : ∀ k < 512, ∀ n, S k n → ∃ n', g.program.Reaches n n' ∧ S (k + 1) n' := by
    rintro k hk n ⟨hfilln, hpcn⟩
    rw [if_pos hk] at hpcn
    obtain ⟨n', hhead, hkept, hpc', hmem, hx0, hx3, hx4, hx7, hx5, hx6⟩ :=
      fill_head g hk (hfilln.kept.mmuOn.trans hoff) hpcn hfilln.x3
    have hfill' : Filling m base bootBlock k n' := ⟨hfilln.kept.trans hkept, hx0.trans hfilln.x0,
      hx3.trans hfilln.x3, hx4.trans hfilln.x4, hx7.trans hfilln.x7, hmem.trans hfilln.mem⟩
    -- the rounds end in code that is shared with the loop over the RP1
    have hat : g.program.At n'.pc (fillTail ++ (fillAgain ++ rp1Head)) :=
      hpc' ▸ at_text g (by decide)
    rw [← List.append_assoc] at hat
    have hword : (n'.x .x6 ||| n'.x .x5).toNat = bootBlock k := by
      rw [hx5, hx6, BitVec.toNat_or, toNat_shift hk, bootBlock]
      split_ifs <;> rfl
    obtain ⟨n'', htail, hfill'', hpc''⟩ :=
      hfill'.tail g hk hbase hoff (Program.at_append.mp hat).1 hword
    exact ⟨n'', hhead.trans htail, hfill'', hpc' ▸ hpc''⟩
  obtain ⟨m', hreach, hfill', hpc'⟩ := Program.loop hround ⟨hfill, hpc⟩
  exact ⟨m', hreach, hfill', hpc'⟩

/-- The start of a round of the loop over the RP1. -/
theorem exec_rp1Flags (sym : BootSym → ℕ) (m : Processor) : Instr.execs sym m rp1Flags =
    some (((m.setX .x5 (m.x .x3 <<< 21)).setX .x5 (m.x .x7 + m.x .x3 <<< 21)).setX .x6 0x401) := by
  rfl

/-- The start of a round makes the descriptor. -/
theorem rp1_head {k : ℕ} (hk : k < 512) (hoff : m.mmuOn = false) (hat : g.program.At m.pc rp1Flags)
    (hx3 : m.x .x3 = BitVec.ofNat 64 k) (hx7 : m.x .x7 = (0x1c : BitVec 64) <<< 32) :
    ∃ m', g.program.Reaches m m' ∧ Kept scratch [] m m' ∧ m'.pc = m.pc + 12 ∧
      m'.mem = m.mem ∧ m'.x .x0 = m.x .x0 ∧ m'.x .x3 = m.x .x3 ∧ m'.x .x4 = m.x .x4 ∧
      m'.x .x7 = m.x .x7 ∧ (m'.x .x6 ||| m'.x .x5).toNat = rp1Block k := by
  refine ⟨_, Program.block_off hoff rfl rfl hat (exec_rp1Flags _ _), ?_, rfl, rfl, rfl, rfl, rfl, rfl,
    ?_⟩
  · exact .of_x fun r hr => by
      cases r <;> first | exact absurd (by decide) hr | rfl
  · show (0x401 ||| (m.x .x7 + m.x .x3 <<< 21)).toNat = _
    have hshift : k <<< 21 < 2^30 := by rw [Nat.shiftLeft_eq]; omega
    have hbase : ((0x1c : BitVec 64) <<< 32).toNat = 0x1c <<< 32 := rfl
    rw [hx7, hx3, BitVec.toNat_or, BitVec.toNat_add, toNat_shift hk, hbase, rp1Block,
      Nat.mod_eq_of_lt (by omega)]
    rfl

/-- The loop over the RP1. -/
theorem rp1_loop (hoff : m.mmuOn = false) (hbase : base < 0x3F000000)
    (hpc : m.pc = g.program.sym .fillRp1) (hx7 : m.x .x7 = (0x1c : BitVec 64) <<< 32)
    (hfill : Filling m base rp1Block 0 m) :
    ∃ m', g.program.Reaches m m' ∧ Filling m base rp1Block 512 m' ∧
      m'.pc = g.program.sym .fillRp1 + 32 := by
  let S : ℕ → Processor → Prop := fun k n => Filling m base rp1Block k n ∧
    n.pc = if k < 512 then g.program.sym .fillRp1 else g.program.sym .fillRp1 + 32
  have hround : ∀ k < 512, ∀ n, S k n → ∃ n', g.program.Reaches n n' ∧ S (k + 1) n' := by
    rintro k hk n ⟨hfilln, hpcn⟩
    rw [if_pos hk] at hpcn
    have hat : g.program.At n.pc (rp1Flags ++ (fillTail ++ (rp1Again ++ (regimeCode ++
        (sctlrCode ++ (mmuBitCode ++ (sctlrCode ++ (isbCode ++ retCode)))))))) :=
      hpcn ▸ at_text g (by decide)
    obtain ⟨hat₁, hat₂⟩ := Program.at_append.mp hat
    rw [← List.append_assoc] at hat₂
    obtain ⟨n', hhead, hkept, hpc', hmem, hx0, hx3, hx4, hx7', hword⟩ :=
      rp1_head g hk (hfilln.kept.mmuOn.trans hoff) hat₁ hfilln.x3 (hfilln.x7.trans hx7)
    have hfill' : Filling m base rp1Block k n' := ⟨hfilln.kept.trans hkept, hx0.trans hfilln.x0,
      hx3.trans hfilln.x3, hx4.trans hfilln.x4, hx7'.trans hfilln.x7, hmem.trans hfilln.mem⟩
    have hat' : g.program.At n'.pc (fillTail ++ rp1Again) := hpc' ▸ (Program.at_append.mp hat₂).1
    obtain ⟨n'', htail, hfill'', hpc''⟩ := hfill'.tail g hk hbase hoff hat' hword
    refine ⟨n'', hhead.trans htail, hfill'', ?_⟩
    rw [hpc'', hpc', hpcn]
  obtain ⟨m', hreach, hfill', hpc'⟩ := Program.loop hround ⟨hfill, hpc⟩
  exact ⟨m', hreach, hfill', hpc'⟩

/-- The arguments of a loop that zeroes a table. -/
structure Zeroing (g : BootImage) (m : Processor) (l : BootSym) (base : ℕ) : Prop where
  off : m.mmuOn = false
  pc : m.pc = g.program.sym l
  x0 : m.x .x0 = BitVec.ofNat 64 base
  x1 : m.x .x1 = 0
  x2 : m.x .x2 = 512

/-- A table is zeroed, and then comes the next. -/
theorem zero_table {l l' t : BootSym} {is : BootCode}
    (htext : [(l, zeroLoop l ++ tableCode t), (l', is)] <:+: bootText) (h : Zeroing g m l base)
    (hbase : base < 0x3F000000) :
    ∃ m', g.program.Reaches m m' ∧ Kept scratch [] m m' ∧ Zeroing g m' l' (g.program.sym t) ∧
      m'.mem = applyWrites m.mem (fillWords base 512 fun _ => 0) := by
  have hat := at_text g (htext.subset List.mem_cons_self)
  obtain ⟨hat₁, hat₂⟩ := Program.at_append.mp hat
  obtain ⟨n, hloop, hkept, hpc, hx1, hmem⟩ := zero_loop g hat₁ hbase h.off h.pc h.x0 h.x1 h.x2
  have hoff : n.mmuOn = false := hkept.mmuOn.trans h.off
  have hexecs : Instr.execs g.program.sym n (tableCode t) =
      some ((n.setX .x0 (BitVec.ofNat 64 (g.program.sym t))).setX .x2 512) := rfl
  have hblock := Program.block_off hoff rfl rfl (hpc.symm ▸ hat₂ : g.program.At n.pc _) hexecs
  have hnext : g.program.sym l' = g.program.sym l + 20 :=
    Program.sym_next (P := g.program) bootText_nodup htext
  refine ⟨_, hloop.trans hblock, hkept.trans (.of_x fun r hr => ?_),
    ⟨hoff, ?_, rfl, hx1, rfl⟩, hmem⟩
  · cases r <;> first | exact absurd (by decide) hr | rfl
  · show n.pc + 8 = _
    rw [hpc, hnext]

/-- A pointer to a table. -/
theorem toNat_link {t : ℕ} (ht : t < 0x3F000000) : (BitVec.ofNat 64 t ||| 3).toNat = t ||| 3 := by
  rw [BitVec.toNat_or, BitVec.toNat_ofNat, Nat.mod_eq_of_lt (by omega)]
  rfl

/-- The address of a word of a table. -/
theorem toNat_entry {t i : ℕ} (ht : t < 0x3F000000) (hi : i < 512) :
    (BitVec.ofNat 64 t + BitVec.ofNat 64 i <<< 3).toNat = t + 8 * i := by
  rw [BitVec.toNat_add, BitVec.toNat_shiftLeft, BitVec.toNat_ofNat, BitVec.toNat_ofNat,
    Nat.shiftLeft_eq]
  omega

/-- The code of an entry 0. -/
theorem exec_linkCode (sym : BootSym → ℕ) (hoff : m.mmuOn = false) (t t' : BootSym) :
    Instr.execs sym m (linkCode t t') = some { m with
      x := Function.update (Function.update (Function.update m.x .x0 (BitVec.ofNat 64 (sym t)))
        .x1 (BitVec.ofNat 64 (sym t'))) .x2 (BitVec.ofNat 64 (sym t') ||| 3)
      mem := Function.update m.mem (BitVec.ofNat 64 (sym t)).toNat
        (BitVec.ofNat 64 (sym t') ||| 3).toNat } := by
  unfold linkCode
  rw [Instr.execs_cons rfl, Instr.execs_cons rfl, Instr.execs_cons rfl,
    Instr.execs_cons (exec_str _ (by exact hoff) _ _)]
  rfl

/-- An entry 0 is stored. -/
theorem link {t t' : BootSym} (hoff : m.mmuOn = false) (hat : g.program.At m.pc (linkCode t t'))
    (ht : g.program.sym t < 0x3F000000) (ht' : g.program.sym t' < 0x3F000000) :
    ∃ m', g.program.Reaches m m' ∧ Kept scratch [] m m' ∧ m'.pc = m.pc + 16 ∧
      m'.x .x0 = BitVec.ofNat 64 (g.program.sym t) ∧
      m'.x .x2 = BitVec.ofNat 64 (g.program.sym t') ||| 3 ∧
      m'.mem = applyWrites m.mem [(g.program.sym t + 8 * 0, g.program.sym t' ||| 3)] := by
  refine ⟨_, Program.block_off hoff rfl rfl hat (exec_linkCode _ hoff _ _),
    (.of_x fun r hr => ?_), rfl, rfl, rfl, ?_⟩
  · cases r <;> first | exact absurd (by decide) hr | rfl
  · rw [applyWrites_one, toNat_link ht', BitVec.toNat_ofNat, Nat.mod_eq_of_lt (by omega)]
    rfl

/-- The entry of the kernel's window is stored. -/
theorem link_alias {t t' : ℕ} (hoff : m.mmuOn = false) (hat : g.program.At m.pc aliasCode)
    (ht : t < 0x3F000000) (ht' : t' < 0x3F000000) (hx0 : m.x .x0 = BitVec.ofNat 64 t)
    (hx2 : m.x .x2 = BitVec.ofNat 64 t' ||| 3) :
    ∃ m', g.program.Reaches m m' ∧ Kept scratch [] m m' ∧ m'.pc = m.pc + 8 ∧
      m'.mem = applyWrites m.mem [(t + 8 * 256, t' ||| 3)] := by
  have hexecs : Instr.execs g.program.sym m aliasCode = some { m.setX .x3 256 with
      mem := Function.update m.mem (m.x .x0 + (256 : BitVec 64) <<< 3).toNat (m.x .x2).toNat } := by
    unfold aliasCode
    rw [Instr.execs_cons rfl, Instr.execs_cons (exec_strIdx _ (by exact hoff) _ _ _)]
    rfl
  refine ⟨_, Program.block_off hoff rfl rfl hat hexecs,
    (.of_x fun r hr => ?_), rfl, ?_⟩
  · cases r <;> first | exact absurd (by decide) hr | rfl
  · have hindex : (256 : BitVec 64) = BitVec.ofNat 64 256 := rfl
    rw [applyWrites_one, hx0, hx2, hindex, toNat_entry ht (by decide), toNat_link ht']

/-- The entry of the window of the RP1 is stored. -/
theorem link_rp1 {t : ℕ} (hoff : m.mmuOn = false) (hat : g.program.At m.pc rp1Link)
    (ht : t < 0x3F000000) (hx0 : m.x .x0 = BitVec.ofNat 64 t) :
    ∃ m', g.program.Reaches m m' ∧ Kept scratch [] m m' ∧ m'.pc = m.pc + 16 ∧
      m'.mem = applyWrites m.mem [(t + 8 * 0x70, g.tables.l2Rp1 ||| 3)] := by
  have hexecs : Instr.execs g.program.sym m rp1Link = some {
      ((m.setX .x1 (BitVec.ofNat 64 g.tables.l2Rp1)).setX .x2
        (BitVec.ofNat 64 g.tables.l2Rp1 ||| 3)).setX .x3 0x70 with
      mem := Function.update m.mem (m.x .x0 + (0x70 : BitVec 64) <<< 3).toNat
        (BitVec.ofNat 64 g.tables.l2Rp1 ||| 3).toNat } := by
    unfold rp1Link
    rw [Instr.execs_cons rfl, Instr.execs_cons rfl, Instr.execs_cons rfl,
      Instr.execs_cons (exec_strIdx _ (by exact hoff) _ _ _)]
    rfl
  refine ⟨_, Program.block_off hoff rfl rfl hat hexecs,
    (.of_x fun r hr => ?_), rfl, ?_⟩
  · cases r <;> first | exact absurd (by decide) hr | rfl
  · have hindex : (0x70 : BitVec 64) = BitVec.ofNat 64 0x70 := rfl
    rw [applyWrites_one, hx0, hindex, toNat_entry ht (by decide), toNat_link g.rp1_lt]

/-- The first table is about to be zeroed. -/
theorem first_table (hoff : m.mmuOn = false) (hpc : m.pc = g.program.sym .bootEnableMmu) :
    ∃ m', g.program.Reaches m m' ∧ Kept scratch [] m m' ∧ Zeroing g m' .zeroL0 g.tables.l0 ∧
      m'.mem = m.mem := by
  have hat : g.program.At m.pc firstTable := hpc ▸ at_text g (by decide)
  have hexecs : Instr.execs g.program.sym m firstTable =
      some (((m.setX .x0 (BitVec.ofNat 64 g.tables.l0)).setX .x1 0).setX .x2 512) := rfl
  have hnext : g.program.sym .zeroL0 = g.program.sym .bootEnableMmu + 12 :=
    Program.sym_next (P := g.program) bootText_nodup ⟨bootText.take 15, bootText.drop 17, rfl⟩
  refine ⟨_, Program.block_off hoff rfl rfl hat hexecs, (.of_x fun r hr => ?_),
    ⟨hoff, ?_, rfl, rfl, rfl⟩, rfl⟩
  · cases r <;> first | exact absurd (by decide) hr | rfl
  · show m.pc + 12 = _
    rw [hnext, hpc]

/-- The tables are zeroed that must be. -/
theorem zero_tables (hoff : m.mmuOn = false) (hpc : m.pc = g.program.sym .bootEnableMmu) :
    ∃ m', g.program.Reaches m m' ∧ Kept scratch [] m m' ∧ m'.pc = g.program.sym .zeroL2 + 12 ∧
      m'.mem = applyWrites m.mem (fillWords g.tables.l0 512 (fun _ => 0) ++
        fillWords g.tables.l1 512 (fun _ => 0) ++ fillWords g.tables.l2 512 (fun _ => 0)) := by
  obtain ⟨m₀, hfirst, hkept₀, hzero₀, hmem₀⟩ := first_table g hoff hpc
  obtain ⟨m₁, hl0, hkept₁, hzero₁, hmem₁⟩ :=
    zero_table g ⟨bootText.take 16, bootText.drop 18, rfl⟩ hzero₀ g.l0_lt
  obtain ⟨m₂, hl1, hkept₂, hzero₂, hmem₂⟩ :=
    zero_table g ⟨bootText.take 17, bootText.drop 19, rfl⟩ hzero₁ g.l1_lt
  have hat := at_text g (List.getElem_mem (l := bootText) (show 18 < bootText.length by decide))
  obtain ⟨m₃, hl2, hkept₃, hpc₃, -, hmem₃⟩ := zero_loop g (Program.at_append.mp hat).1 g.l2_lt
    hzero₂.off hzero₂.pc hzero₂.x0 hzero₂.x1 hzero₂.x2
  refine ⟨m₃, hfirst.trans (hl0.trans (hl1.trans hl2)),
    hkept₀.trans (hkept₁.trans (hkept₂.trans hkept₃)), hpc₃, ?_⟩
  rw [hmem₃, hmem₂, hmem₁, hmem₀, applyWrites_append, applyWrites_append]
  rfl

/-- The tables are linked, and the loop over the first GiB is next. -/
theorem link_tables (hoff : m.mmuOn = false) (hpc : m.pc = g.program.sym .zeroL2 + 12) :
    ∃ m', g.program.Reaches m m' ∧ Kept scratch [] m m' ∧ m'.pc = g.program.sym .fillL2 ∧
      Filling m' g.tables.l2 bootBlock 0 m' ∧
      m'.mem = applyWrites m.mem ([(g.tables.l0 + 8 * 0, g.tables.l1 ||| 3)] ++
        [(g.tables.l0 + 8 * 256, g.tables.l1 ||| 3)] ++ [(g.tables.l1 + 8 * 0, g.tables.l2 ||| 3)] ++
        [(g.tables.l1 + 8 * 0x70, g.tables.l2Rp1 ||| 3)]) := by
  have hat : g.program.At (g.program.sym .zeroL2) (zeroLoop .zeroL2 ++ (linkCode .bootL0 .bootL1 ++
      (aliasCode ++ (linkCode .bootL1 .bootL2 ++ (rp1Link ++ fillRange))))) := at_text g (by decide)
  have hat : g.program.At m.pc _ := hpc ▸ (Program.at_append.mp hat).2
  obtain ⟨hat₁, hat⟩ := Program.at_append.mp hat
  obtain ⟨hat₂, hat⟩ := Program.at_append.mp hat
  obtain ⟨hat₃, hat⟩ := Program.at_append.mp hat
  obtain ⟨hat₄, hat₅⟩ := Program.at_append.mp hat
  obtain ⟨m₁, hl0, hkept₁, hpc₁, hx0₁, hx2₁, hmem₁⟩ := link g hoff hat₁ g.l0_lt g.l1_lt
  have hoff₁ := hkept₁.mmuOn.trans hoff
  obtain ⟨m₂, halias, hkept₂, hpc₂, hmem₂⟩ :=
    link_alias g hoff₁ (hpc₁ ▸ hat₂) g.l0_lt g.l1_lt hx0₁ hx2₁
  have hoff₂ := hkept₂.mmuOn.trans hoff₁
  rw [hpc₁] at hpc₂
  have hat₃ : g.program.At m₂.pc (linkCode .bootL1 .bootL2) := hpc₂ ▸ hat₃
  obtain ⟨m₃, hl1, hkept₃, hpc₃, hx0₃, -, hmem₃⟩ := link g hoff₂ hat₃ g.l1_lt g.l2_lt
  have hoff₃ := hkept₃.mmuOn.trans hoff₂
  rw [hpc₂] at hpc₃
  obtain ⟨m₄, hrp1, hkept₄, hpc₄, hmem₄⟩ := link_rp1 g hoff₃ (hpc₃ ▸ hat₄) g.l1_lt hx0₃
  have hoff₄ := hkept₄.mmuOn.trans hoff₃
  rw [hpc₃] at hpc₄
  have hexecs : Instr.execs g.program.sym m₄ fillRange =
      some (((m₄.setX .x0 (BitVec.ofNat 64 g.tables.l2)).setX .x3 0).setX .x4 512) := rfl
  have hfill := Program.block_off hoff₄ rfl rfl (hpc₄ ▸ hat₅) hexecs
  have hnext : g.program.sym .fillL2 = g.program.sym .zeroL2 + 80 :=
    Program.sym_next (P := g.program) bootText_nodup ⟨bootText.take 18, bootText.drop 20, rfl⟩
  have hkept := hkept₁.trans (hkept₂.trans (hkept₃.trans hkept₄))
  refine ⟨_, hl0.trans (halias.trans (hl1.trans (hrp1.trans hfill))),
    hkept.trans (.of_x fun r hr => ?_), ?_, ⟨.refl, rfl, rfl, rfl, rfl, rfl⟩, ?_⟩
  · cases r <;> first | exact absurd (by decide) hr | rfl
  · show m₄.pc + 12 = _
    rw [hpc₄, hpc, hnext]
  · show m₄.mem = _
    rw [hmem₄, hmem₃, hmem₂, hmem₁, applyWrites_append, applyWrites_append, applyWrites_append]
    rfl

/-- The loop over the RP1 is about to start. -/
theorem rp1_start (hoff : m.mmuOn = false) (hpc : m.pc = g.program.sym .storeL2 + 20) :
    ∃ m', g.program.Reaches m m' ∧ Kept scratch [] m m' ∧ m'.pc = g.program.sym .fillRp1 ∧
      m'.x .x7 = (0x1c : BitVec 64) <<< 32 ∧ Filling m' g.tables.l2Rp1 rp1Block 0 m' ∧
      m'.mem = m.mem := by
  have hat : g.program.At (g.program.sym .storeL2) ((fillTail ++ fillAgain) ++ rp1Head) :=
    at_text g (by decide)
  have hat' : g.program.At m.pc rp1Head := hpc ▸ (Program.at_append.mp hat).2
  have hexecs : Instr.execs g.program.sym m rp1Head =
      some (((((m.setX .x0 (BitVec.ofNat 64 g.tables.l2Rp1)).setX .x3 0).setX .x4 512).setX
        .x7 0x1c).setX .x7 ((0x1c : BitVec 64) <<< 32)) := rfl
  have hnext : g.program.sym .fillRp1 = g.program.sym .storeL2 + 40 :=
    Program.sym_next (P := g.program) bootText_nodup ⟨bootText.take 20, bootText.drop 22, rfl⟩
  refine ⟨_, Program.block_off hoff rfl rfl hat' hexecs,
    (.of_x fun r hr => ?_), ?_, rfl, ⟨.refl, rfl, rfl, rfl, rfl, rfl⟩, rfl⟩
  · cases r <;> first | exact absurd (by decide) hr | rfl
  · show m.pc + 20 = _
    rw [hpc, hnext]

/-- The stores of `boot_enable_mmu` are those of `BootTables.stores`. -/
theorem build_tables (hoff : m.mmuOn = false) (hpc : m.pc = g.program.sym .bootEnableMmu) :
    ∃ m', g.program.Reaches m m' ∧ Kept scratch [] m m' ∧ m'.pc = g.program.sym .fillRp1 + 32 ∧
      m'.mem = applyWrites m.mem g.tables.stores := by
  obtain ⟨m₁, hzero, hkept₁, hpc₁, hmem₁⟩ := zero_tables g hoff hpc
  have hoff₁ := hkept₁.mmuOn.trans hoff
  obtain ⟨m₂, hlink, hkept₂, hpc₂, hfill₂, hmem₂⟩ := link_tables g hoff₁ hpc₁
  have hoff₂ := hkept₂.mmuOn.trans hoff₁
  obtain ⟨m₃, hloop, hfill₃, hpc₃⟩ := fill_loop g hoff₂ g.l2_lt hpc₂ hfill₂
  have hoff₃ := hfill₃.kept.mmuOn.trans hoff₂
  obtain ⟨m₄, hstart, hkept₄, hpc₄, hx7₄, hfill₄, hmem₄⟩ := rp1_start g hoff₃ hpc₃
  obtain ⟨m₅, hrp1, hfill₅, hpc₅⟩ :=
    rp1_loop g (hkept₄.mmuOn.trans hoff₃) g.rp1_lt hpc₄ hx7₄ hfill₄
  refine ⟨m₅, hzero.trans (hlink.trans (hloop.trans (hstart.trans hrp1))),
    hkept₁.trans (hkept₂.trans (hfill₃.kept.trans (hkept₄.trans hfill₅.kept))), hpc₅, ?_⟩
  rw [hfill₅.mem, hmem₄, hfill₃.mem, hmem₂, hmem₁, BootTables.stores]
  simp only [applyWrites_append]

end Tables

/-! ## The MMU -/

/-- A system register is written. -/
theorem exec_msr (sym : BootSym → ℕ) {m : Processor} {r : SysReg} (h : r.level ≤ m.el) (w : Operand) :
    (Instr.msr r w).exec sym m = some (m.writeSys r (m.read w)) := if_pos h

/-- A system register is read. -/
theorem exec_mrs (sym : BootSym → ℕ) {m : Processor} {r : SysReg} (h : r.level ≤ m.el) (d : Gpr) :
    (Instr.mrs d r).exec sym m = some (m.setX d (m.readSys r)) := if_pos h

/-- `TCR`, as `boot.S` puts it together. -/
def bootTcr : BitVec 64 :=
  16 ||| 0x100000 ||| 0x100 ||| 0x400 ||| 0x3000 ||| 0x1000000 ||| 0x4000000 ||| 0x30000000 |||
    0x80000000 ||| 0x200000000

/-- `SCTLR` without MMU and caches. -/
def plainSctlr (w : BitVec 64) : BitVec 64 := ((w &&& ~~~0x1) &&& ~~~0x4) &&& ~~~0x1000

/-- The system registers of `boot_enable_mmu`. -/
def mmuRegs : List SysReg := [.mairEl1, .tcrEl1, .ttbr0El1, .ttbr1El1, .sctlrEl1]

/-- The MMU is on, with the tables of `boot.S`. -/
structure Mapped (g : BootImage) (m : Processor) : Prop where
  el : m.el = 1
  on : (m.sys .sctlrEl1).getLsbD 0
  mair : m.sys .mairEl1 = 0xff00
  tcr : m.sys .tcrEl1 = bootTcr
  ttbr0 : m.sys .ttbr0El1 = BitVec.ofNat 64 g.tables.l0
  ttbr1 : m.sys .ttbr1El1 = BitVec.ofNat 64 g.tables.l0
  mem : ∀ a, Translation.translate m.mem g.tables.l0 g.tables.l0 a =
    if Canonical a ∧ a % 2^47 < 2^39 then BootTables.leaf (a % 2^39) else none

namespace Mapped

variable {g : BootImage} {m : Processor} {a : ℕ}

/-- Both roots are the L0 table. -/
theorem root (g : BootImage) :
    Translation.nextTable (BitVec.ofNat 64 g.tables.l0).toNat = g.tables.l0 := by
  have hlt := g.l0_lt
  have hal := g.tables.aligned.1
  rw [BitVec.toNat_ofNat, Translation.nextTable]
  omega

/-- Where an access goes. -/
theorem xlate_eq (h : Mapped g m) (a : ℕ) : m.xlate a =
    if Canonical a ∧ a % 2^47 < 2^39 then (BootTables.leaf (a % 2^39)).map Translation.pa
    else none := by
  have hon : m.mmuOn := by rw [Processor.mmuOn, h.el, h.on]; rfl
  have htcr : granule4k48 (m.sys .tcrEl1) := by rw [h.tcr]; decide
  rw [Processor.xlate, if_pos hon, if_pos htcr, h.ttbr0, h.ttbr1, root, h.mem]
  split_ifs <;> rfl

/-- The first GiB is where it is. -/
theorem xlate_low (h : Mapped g m) (ha : a < 2^30) : m.xlate a = some a := by
  have hmod : a % 2^39 = a := Nat.mod_eq_of_lt (by omega)
  rw [h.xlate_eq, if_pos ⟨.inl (by omega), by omega⟩, hmod, BootTables.leaf, if_pos ha,
    Option.map_some]

/-- It is in the kernel's window as well. -/
theorem xlate_window (h : Mapped g m) (ha : a < 2^30) : m.xlate (kernelVirtBase + a) = some a := by
  have hmod : (kernelVirtBase + a) % 2^39 = a := by unfold kernelVirtBase; omega
  have hcan : Canonical (kernelVirtBase + a) ∧ (kernelVirtBase + a) % 2^47 < 2^39 := by
    unfold Canonical kernelVirtBase
    omega
  rw [h.xlate_eq, if_pos hcan, hmod, BootTables.leaf, if_pos ha, Option.map_some]

/-- The code of `boot.S` runs on. -/
theorem direct (h : Mapped g m) : g.program.Direct m := by
  intro a _ ha
  have hcode := g.code_lt
  exact h.xlate_low (lt_trans (lt_of_lt_of_le ha hcode) (by decide))

end Mapped


section Regime

variable (g : BootImage) {m : Processor}

/-- The code of `MAIR`, `TCR` and the roots. -/
theorem exec_regimeCode (hel : m.el = 1) :
    ∃ x, Instr.execs g.program.sym m regimeCode = some { m with
      x := x
      sys := Function.update (Function.update (Function.update (Function.update m.sys
        .mairEl1 0xff00) .tcrEl1 bootTcr) .ttbr0El1 (BitVec.ofNat 64 g.tables.l0))
        .ttbr1El1 (BitVec.ofNat 64 g.tables.l0) } ∧
      x .x0 = plainSctlr (m.sys .sctlrEl1) ∧ ∀ r ∉ scratch, x r = m.x r := by
  unfold regimeCode
  rw [Instr.execs_cons rfl, Instr.execs_cons rfl, Instr.execs_cons (exec_msr _ (by exact hel.ge) _),
    Instr.execs_cons rfl, Instr.execs_cons rfl, Instr.execs_cons rfl, Instr.execs_cons rfl,
    Instr.execs_cons rfl, Instr.execs_cons rfl, Instr.execs_cons rfl, Instr.execs_cons rfl,
    Instr.execs_cons rfl, Instr.execs_cons rfl, Instr.execs_cons (exec_msr _ (by exact hel.ge) _),
    Instr.execs_cons rfl, Instr.execs_cons rfl, Instr.execs_cons (exec_msr _ (by exact hel.ge) _),
    Instr.execs_cons (exec_msr _ (by exact hel.ge) _), Instr.execs_cons rfl, Instr.execs_cons rfl,
    Instr.execs_cons (exec_mrs _ (by exact hel.ge) _), Instr.execs_cons rfl, Instr.execs_cons rfl,
    Instr.execs_cons rfl]
  refine ⟨_, rfl, rfl, fun r hr => ?_⟩
  cases r <;> first | exact absurd (by decide) hr | rfl

/-- The MMU is off without its bit. -/
theorem getLsbD_plainSctlr (w : BitVec 64) : (plainSctlr w).getLsbD 0 = false := by
  simp [plainSctlr]

/-- It is on with it. -/
theorem getLsbD_mmuBit (w : BitVec 64) : (w ||| 1).getLsbD 0 = true := by simp

/-- `SCTLR` is written. -/
theorem next_sctlr (hel : m.el = 1) (hdirect : g.program.Direct m)
    (hat : g.program.At m.pc sctlrCode) :
    g.program.Reaches m
      { m with sys := Function.update m.sys .sctlrEl1 (m.x .x0), pc := m.pc + 4 } := by
  refine Program.next hdirect hat ?_
  rw [Instr.next_of_isData _ _ rfl, exec_msr _ (by exact hel.ge) _]
  rfl

/-- `boot_enable_mmu`, after its loops, up to the bit of the MMU. -/
theorem set_regime (hel : m.el = 1) (hoff : m.mmuOn = false)
    (hpc : m.pc = g.program.sym .fillRp1 + 32) :
    ∃ m', g.program.Reaches m m' ∧ Kept scratch mmuRegs m m' ∧
      m'.pc = g.program.sym .fillRp1 + 140 ∧ m'.mem = m.mem ∧ m'.mmuOn = false ∧
      m'.x .x0 = plainSctlr (m.sys .sctlrEl1) ||| 1 ∧ m'.sys .mairEl1 = 0xff00 ∧
      m'.sys .tcrEl1 = bootTcr ∧ m'.sys .ttbr0El1 = BitVec.ofNat 64 g.tables.l0 ∧
      m'.sys .ttbr1El1 = BitVec.ofNat 64 g.tables.l0 := by
  have hat : g.program.At (g.program.sym .fillRp1) ((rp1Flags ++ (fillTail ++ rp1Again)) ++
      (regimeCode ++ (sctlrCode ++ (mmuBitCode ++ (sctlrCode ++ (isbCode ++ retCode)))))) :=
    at_text g (by decide)
  have hat : g.program.At m.pc _ := hpc ▸ (Program.at_append.mp hat).2
  obtain ⟨hat₁, hat⟩ := Program.at_append.mp hat
  obtain ⟨hat₂, hat⟩ := Program.at_append.mp hat
  obtain ⟨hat₃, -⟩ := Program.at_append.mp hat
  obtain ⟨x, hexecs, hx0, hx⟩ := exec_regimeCode g hel
  have hregime := Program.block_off hoff rfl rfl hat₁ hexecs
  have hsctlr := hregime.trans (next_sctlr g hel (Program.direct_of_off hoff) hat₂)
  -- the first write of `SCTLR` leaves the MMU off
  have hplain : (m.el == 1 && (x .x0).getLsbD 0) = false := by
    rw [hx0, getLsbD_plainSctlr, Bool.and_false]
  have hbit := hsctlr.trans (Program.block_off (by exact hplain) rfl rfl hat₃ rfl)
  refine ⟨_, hbit, ⟨rfl, rfl, rfl, rfl, rfl, fun r hr => ?_, fun r hr => ?_⟩, ?_, rfl, hplain, ?_, rfl,
    rfl, rfl, rfl⟩
  · cases r <;> first | exact absurd (by decide) hr | rfl
  · refine Eq.trans ?_ (hx r hr)
    cases r <;> first | exact absurd (by decide) hr | rfl
  · show m.pc + 96 + 4 + 8 = _
    rw [hpc]
  · show x .x0 ||| 1 = _
    rw [hx0]

/-- The MMU is turned on, and the code goes on where it is. -/
theorem turn_on {mem : PhysMem} (hel : m.el = 1) (hoff : m.mmuOn = false)
    (hpc : m.pc = g.program.sym .fillRp1 + 32) (hmem : m.mem = applyWrites mem g.tables.stores) :
    ∃ m', g.program.Reaches m m' ∧ Kept scratch mmuRegs m m' ∧ m'.pc = (m.x .x30).toNat ∧
      m'.mem = m.mem ∧ Mapped g m' := by
  obtain ⟨n, hregime, hkept, hpcn, hmemn, hoffn, hx0, hmair, htcr, httbr0, httbr1⟩ :=
    set_regime g hel hoff hpc
  have hat : g.program.At (g.program.sym .fillRp1) ((rp1Flags ++ (fillTail ++ (rp1Again ++
      (regimeCode ++ (sctlrCode ++ mmuBitCode))))) ++ (sctlrCode ++ (isbCode ++ retCode))) :=
    at_text g (by decide)
  have hat : g.program.At n.pc _ := hpcn ▸ (Program.at_append.mp hat).2
  obtain ⟨hat₁, hat⟩ := Program.at_append.mp hat
  obtain ⟨hat₂, hat₃⟩ := Program.at_append.mp hat
  have hel' : n.el = 1 := hkept.el.trans hel
  have hswitch := hregime.trans (next_sctlr g hel' (Program.direct_of_off hoffn) hat₁)
  -- from here on the tables decide where the CPU fetches
  have hmapped : Mapped g
      { n with sys := Function.update n.sys .sctlrEl1 (n.x .x0), pc := n.pc + 4 } := by
    refine ⟨hel', ?_, hmair, htcr, httbr0, httbr1, fun a => ?_⟩
    · show (n.x .x0).getLsbD 0
      rw [hx0, getLsbD_mmuBit]
    · show Translation.translate n.mem _ _ a = _
      rw [hmemn, hmem]
      exact (translate_boot g.tables mem).1 a
  -- `x30` is an address of the caller, before and after
  have hisb := hswitch.trans (Program.block_on hmapped.direct rfl rfl hat₂ rfl)
  have hret := hisb.trans (Program.next (by exact hmapped.direct) hat₃ rfl)
  refine ⟨_, hret, ⟨hkept.el, hkept.spsel, hkept.daif, hkept.sp, hkept.out, fun r hr => ?_, hkept.x⟩,
    ?_, hmemn, ?_⟩
  · refine Eq.trans ?_ (hkept.sys r hr)
    cases r <;> first | exact absurd (by decide) hr | rfl
  · exact congrArg BitVec.toNat (hkept.x .x30 (by decide))
  · exact ⟨hmapped.el, hmapped.on, hmapped.mair, hmapped.tcr, hmapped.ttbr0, hmapped.ttbr1, hmapped.mem⟩

/-- `boot_enable_mmu`. -/
theorem enable_mmu (hel : m.el = 1) (hoff : m.mmuOn = false)
    (hpc : m.pc = g.program.sym .bootEnableMmu) :
    ∃ m', g.program.Reaches m m' ∧ Kept scratch mmuRegs m m' ∧ m'.pc = (m.x .x30).toNat ∧
      m'.mem = applyWrites m.mem g.tables.stores ∧ Mapped g m' := by
  obtain ⟨n, hbuild, hkept, hpcn, hmem⟩ := build_tables g hoff hpc
  obtain ⟨m', hturn, hkept', hpc', hmem', hmapped⟩ :=
    turn_on g (hkept.el.trans hel) (hkept.mmuOn.trans hoff) hpcn hmem
  refine ⟨m', hbuild.trans hturn, hkept.with_sys.trans hkept', ?_, hmem'.trans hmem, hmapped⟩
  rw [hpc', hkept.x .x30 (by decide)]

end Regime

end Ralix.Arch.BootAsm
