import Ralix.Kernel.Ticks

/-!
# The tick goes on

The invariant of `Ralix.Kernel.Ticks` has a part for each CPU, which no step of another CPU can break:
the registers of the controller that it works with are its own, and `TICK_TICKS` is always set to the
same value. What is shared is the control register of the distributor, which CPU 0 alone writes to.
So no CPU stops ticking, or ticks too often, and each interrupt is ended that was acknowledged, before
any other (`ticks_go_on`).
-/

namespace Ralix.Kernel

open Lib Arch Platform Drivers

/-! ## Single accesses -/

/-- What an access does to the registers of a CPU does not depend on the distributor. -/
theorem apply_bank (op : Gic.Op) (d d' : UInt32) (b : Gic.Bank) :
    (op.apply ⟨d, b⟩).bank = (op.apply ⟨d', b⟩).bank := by
  cases op with
  | write reg v => rfl
  | modify reg f => cases reg <;> rfl

/-- The registers of a CPU after some accesses. -/
def bankRun (b : Gic.Bank) (ops : List Gic.Op) : Gic.Bank := (Gic.run ⟨0, b⟩ ops).bank

/-- Nor does it depend on the interrupts that are active. -/
theorem idle_apply (op : Gic.Op) (d : UInt32) (b : Gic.Bank) :
    { (op.apply ⟨d, b⟩).bank with active := [] } =
      (op.apply ⟨d, { b with active := [] }⟩).bank := by
  cases op with
  | write reg v => cases reg <;> rfl
  | modify reg f => cases reg <;> rfl

/-- One more access. -/
theorem bankRun_concat (b : Gic.Bank) (ops : List Gic.Op) (op : Gic.Op) (d : UInt32) :
    bankRun b (ops ++ [op]) = (op.apply ⟨d, bankRun b ops⟩).bank := by
  unfold bankRun Gic.run
  rw [List.foldl_append, List.foldl_cons, List.foldl_nil]
  exact apply_bank op _ _ _

/-- The accesses to the controller among the steps of `init_per_cpu`. -/
def gicOps (ops : List InitOp) : List Gic.Op :=
  ops.filterMap fun
    | .gic op => some op
    | _ => none

/-- No access acknowledges or ends an interrupt. -/
theorem active_apply (op : Gic.Op) (s : Gic.View) : (op.apply s).bank.active = s.bank.active := by
  cases op with
  | write reg v => cases reg <;> rfl
  | modify reg f => cases reg <;> rfl

/-- All of the accesses. -/
theorem gicOps_initPerCpu (cpu : Cpu) : gicOps (initPerCpu .rpi5 cpu tickMs) = initGic cpu := by
  unfold initPerCpu initController gicOps
  simp [List.filterMap_append, List.filterMap_map]

/-- After them, the CPU is ready. -/
theorem ready_initGic (b : Gic.Bank) (cpu : Cpu) : (bankRun b (initGic cpu)).Ready := by
  unfold bankRun initGic Gic.run
  rw [List.foldl_append]
  exact (Gic.initCpu_ready _).1

/-- The accesses of `init_cpu` leave the distributor's control register alone. -/
theorem dCtlr_initCpu {op : Gic.Op} (h : op ∈ Gic.initCpu) (s : Gic.View) :
    (op.apply s).dCtlr = s.dCtlr := by
  revert op
  simp only [Gic.initCpu, List.forall_mem_cons]
  exact ⟨rfl, rfl, rfl, rfl, rfl, rfl, rfl, nofun⟩

/-- The steps of `init_per_cpu` up to the end of `init_dist`. -/
def distSteps : ℕ := 6

/-- The last of them lets the distributor forward both groups. -/
theorem initPerCpu_dist {n : ℕ} {op : InitOp} (h : (initPerCpu .rpi5 0 tickMs)[n]? = some op)
    (hn : n + 1 = distSteps) : op = .gic (.write .dCtlr 0x3) := by
  obtain rfl : n = 5 := Nat.succ_injective hn
  exact (Option.some.inj h).symm

/-- The others are those of `init_cpu`. -/
theorem mem_initCpu {cpu : Cpu} {n : ℕ} {op : Gic.Op}
    (h : (initPerCpu .rpi5 cpu tickMs)[n]? = some (.gic op)) (hn : cpu = 0 → distSteps ≤ n) :
    op ∈ Gic.initCpu := by
  have hsplit : initPerCpu .rpi5 cpu tickMs = (.initTick tickMs ::
      (if cpu = 0 then Gic.initDist else []).map .gic) ++ (Gic.initCpu.map .gic ++ [.enableIrq]) := by
    simp [initPerCpu, initController, initGic]
  have hmem : .gic op ∈ Gic.initCpu.map InitOp.gic ++ [.enableIrq] := by
    by_cases hcpu : cpu = 0
    · rw [hsplit, if_pos hcpu, List.getElem?_append_right (hn hcpu)] at h
      exact List.mem_of_getElem? h
    · rw [hsplit, if_neg hcpu] at h
      have hall := List.mem_of_getElem? h
      simpa using hall
  simpa using hmem

/-! ## The invariant -/

/-- The steps of `init_per_cpu` that a CPU has done. -/
def progress (board : Board) (c : Cpu) : TickStage → List InitOp
  | .off => []
  | .init n => (initPerCpu board c tickMs).take n
  | .running | .irq | .timer _ | .ticked _ | .ending _ => initPerCpu board c tickMs

/-- The interrupt that a CPU has to end. -/
def held : TickStage → List UInt32
  | .timer id | .ticked id => id.toList
  | .ending id => [id]
  | .off | .init _ | .running | .irq => []

namespace Ticker

/-- The timer of a CPU fires within a tick. -/
structure Armed (ticks : BitVec 64) (m : Ticker) (c : Cpu) : Prop where
  kept : m.tickTicks = ticks
  enabled : (m.timer c).enabled = true
  soon : (m.timer c).cval ≤ m.now + (ticks.toNat : ℤ)

/-- What holds of a CPU, in whatever order they act. -/
structure CpuInv (board : Board) (ticks : BitVec 64) (b : Gic.Bank) (m : Ticker) (c : Cpu) : Prop where
  bank : board = .rpi5 → { m.bank c with active := [] } =
    bankRun { b with active := [] } (gicOps (progress board c (m.stage c)))
  active : (m.bank c).active = held (m.stage c)
  routed : .enableTimer ∈ progress board c (m.stage c) → m.timerIntCtrl c = cntpIrqBit
  armed : .initTick tickMs ∈ progress board c (m.stage c) → Armed ticks m c
  fires : ∀ id, m.stage c = .timer id → (m.timer c).Fires m.now

/-- What holds of all of them, and of the distributor. -/
structure Inv (board : Board) (ticks : BitVec 64) (bank : Cpu → Gic.Bank) (m : Ticker) : Prop where
  cpu : ∀ c, CpuInv board ticks (bank c) m c
  dist : board = .rpi5 → distSteps ≤ (progress board 0 (m.stage 0)).length → m.dCtlr = 0x3

section Invariant

variable {board : Board} {frequency ticks : BitVec 64} {bank : Cpu → Gic.Bank} {b : Gic.Bank}
  {m m' : Ticker} {c d : Cpu}

/-- Both callers of `init_per_cpu` ask for the same ticks. -/
theorem initTick_ms {ms : BitVec 64} (h : .initTick ms ∈ initPerCpu board c tickMs) : ms = tickMs := by
  unfold initPerCpu initController at h
  cases board <;> simpa using h

/-- What is not touched keeps it, while time passes. -/
theorem CpuInv.congr (h : CpuInv board ticks b m c) (hbank : m'.bank c = m.bank c)
    (hrouted : m'.timerIntCtrl c = m.timerIntCtrl c) (htimer : m'.timer c = m.timer c)
    (hstage : m'.stage c = m.stage c) (hnow : m.now ≤ m'.now)
    (hticks : m'.tickTicks = m.tickTicks ∨ m'.tickTicks = ticks) : CpuInv board ticks b m' c where
  bank := by
    rw [hbank, hstage]
    exact h.bank
  active := by
    rw [hbank, hstage]
    exact h.active
  routed := by
    rw [hrouted, hstage]
    exact h.routed
  armed := by
    rw [hstage]
    intro hmem
    obtain ⟨hkept, henabled, hsoon⟩ := h.armed hmem
    refine ⟨hticks.elim (fun e => e.trans hkept) id, htimer ▸ henabled, ?_⟩
    rw [htimer]
    omega
  fires := by
    rw [hstage, htimer]
    intro id hid
    obtain ⟨henabled, hcval⟩ := h.fires id hid
    exact ⟨henabled, by omega⟩

/-- A CPU that goes on in the kernel keeps it, if it knows what it has to end, and that the timer fires
before it sets it. -/
theorem CpuInv.goto {stage : TickStage} (h : CpuInv board ticks b m c)
    (hprogress : progress board c stage = progress board c (m.stage c))
    (hheld : held stage = held (m.stage c))
    (hfires : ∀ id, stage = .timer id → (m.timer c).Fires m.now) :
    CpuInv board ticks b (m.goto c stage) c := by
  have hstage := goto_stage m c stage
  refine ⟨?_, ?_, ?_, ?_, ?_⟩
  · rw [hstage, hprogress]
    exact h.bank
  · rw [hstage, hheld]
    exact h.active
  · rw [hstage, hprogress]
    exact h.routed
  · rw [hstage, hprogress]
    exact fun hmem => ⟨(h.armed hmem).kept, (h.armed hmem).enabled, (h.armed hmem).soon⟩
  · rw [hstage]
    exact hfires

/-- The ticks of a timer that is set are not taken for a negative number. -/
theorem cval_setTimer {now : ℕ} (hticks : ticks.toNat < 2^31) :
    (setTimer now ticks).cval = now + (ticks.toNat : ℤ) := by
  have hlow : (ticks.setWidth 32).toNat = ticks.toNat := by
    rw [BitVec.toNat_setWidth]
    exact Nat.mod_eq_of_lt (by omega)
  rw [setTimer, BitVec.toInt_eq_toNat_of_lt (by rw [hlow]; omega), hlow]

/-- A step of `init_per_cpu`. -/
theorem CpuInv.exec {n : ℕ} {op : InitOp} (hlt : ticks.toNat < 2^31)
    (hticks : ticks = Kernel.tickTicks frequency tickMs) (h : CpuInv board ticks b m c)
    (hstage : m.stage c = .init n) (hop : (initPerCpu board c tickMs)[n]? = some op) :
    CpuInv board ticks b ((m.exec frequency c op).goto c (.init (n + 1))) c := by
  have hstage' := goto_stage (m.exec frequency c op) c (.init (n + 1))
  have htake : (initPerCpu board c tickMs).take (n + 1) =
      (initPerCpu board c tickMs).take n ++ [op] := by
    rw [List.take_add_one, hop]
    rfl
  obtain ⟨hbank, hactive, hrouted, harmed, -⟩ := h
  rw [hstage] at hbank hactive hrouted harmed
  have hprogress : progress board c (.init (n + 1)) = progress board c (.init n) ++ [op] := htake
  refine ⟨?_, ?_, ?_, ?_, ?_⟩
  · rw [hstage', hprogress, gicOps, List.filterMap_append]
    intro hboard
    cases op with
    | gic op =>
      show { (Function.update m.bank c (op.apply ⟨m.dCtlr, m.bank c⟩).bank) c with active := [] } =
        bankRun _ (gicOps (progress board c (.init n)) ++ [op])
      rw [Function.update_self, idle_apply, hbank hboard, ← bankRun_concat]
    | initTick ms => exact (hbank hboard).trans (congrArg _ (List.append_nil _).symm)
    | enableTimer => exact (hbank hboard).trans (congrArg _ (List.append_nil _).symm)
    | enableIrq => exact (hbank hboard).trans (congrArg _ (List.append_nil _).symm)
  · rw [hstage']
    cases op with
    | gic op =>
      show (Function.update m.bank c (op.apply ⟨m.dCtlr, m.bank c⟩).bank c).active = []
      rw [Function.update_self, active_apply]
      exact hactive
    | initTick ms => exact hactive
    | enableTimer => exact hactive
    | enableIrq => exact hactive
  · rw [hstage', hprogress]
    intro hmem
    cases op with
    | enableTimer => exact Function.update_self ..
    | gic op => exact hrouted (by simpa using hmem)
    | initTick ms => exact hrouted (by simpa using hmem)
    | enableIrq => exact hrouted (by simpa using hmem)
  · rw [hstage', hprogress]
    intro hmem
    have hkept : ∀ {m' : Ticker}, .initTick tickMs ∈ progress board c (.init n) →
        m'.tickTicks = m.tickTicks → m'.timer c = m.timer c → m'.now = m.now →
          Armed ticks m' c := by
      intro m' hmem hkept htimer hnow
      obtain ⟨hk, he, hs⟩ := harmed hmem
      exact ⟨hkept.trans hk, htimer ▸ he, by rw [htimer, hnow]; exact hs⟩
    cases op with
    | initTick ms =>
      obtain rfl : ms = tickMs := initTick_ms (List.mem_of_getElem? hop)
      have htimer : ((m.exec frequency c (.initTick tickMs)).goto c (.init (n + 1))).timer c =
          setTimer m.now ticks := by
        rw [hticks]
        exact Function.update_self ..
      refine ⟨hticks.symm, ?_, ?_⟩
      · rw [htimer]
        rfl
      · rw [htimer, cval_setTimer hlt]
        exact le_rfl
    | gic op => exact hkept (by simpa using hmem) rfl rfl rfl
    | enableTimer => exact hkept (by simpa using hmem) rfl rfl rfl
    | enableIrq => exact hkept (by simpa using hmem) rfl rfl rfl
  · rw [hstage']
    nofun

/-- A step of `init_per_cpu` on another CPU. -/
theorem CpuInv.exec_other {n : ℕ} {op : InitOp} (hticks : ticks = Kernel.tickTicks frequency tickMs)
    (h : CpuInv board ticks b m d) (hdc : d ≠ c) (hop : (initPerCpu board c tickMs)[n]? = some op) :
    CpuInv board ticks b ((m.exec frequency c op).goto c (.init (n + 1))) d := by
  have hstage : ((m.exec frequency c op).goto c (.init (n + 1))).stage d =
      (m.exec frequency c op).stage d := Function.update_of_ne hdc ..
  cases op with
  | gic op => exact h.congr (Function.update_of_ne hdc ..) rfl rfl hstage le_rfl (.inl rfl)
  | initTick ms =>
    obtain rfl : ms = tickMs := initTick_ms (List.mem_of_getElem? hop)
    exact h.congr rfl rfl (Function.update_of_ne hdc ..) hstage le_rfl (.inr hticks.symm)
  | enableTimer => exact h.congr rfl (Function.update_of_ne hdc ..) rfl hstage le_rfl (.inl rfl)
  | enableIrq => exact h.congr rfl rfl rfl hstage le_rfl (.inl rfl)

/-- A CPU that goes on in the kernel leaves the others alone. -/
theorem CpuInv.goto_other {stage : TickStage} (h : CpuInv board ticks b m d) (hdc : d ≠ c) :
    CpuInv board ticks b (m.goto c stage) d :=
  h.congr rfl rfl rfl (Function.update_of_ne hdc ..) le_rfl (.inl rfl)

/-- The distributor, after a step that leaves it alone, and the progress of CPU 0 as it was. -/
theorem Inv.dist_congr (h : Inv board ticks bank m) (hdist : m'.dCtlr = m.dCtlr)
    (hprogress : progress board 0 (m'.stage 0) = progress board 0 (m.stage 0)) :
    board = .rpi5 → distSteps ≤ (progress board 0 (m'.stage 0)).length → m'.dCtlr = 0x3 := by
  rw [hdist, hprogress]
  exact h.dist

/-- A CPU that goes on in the kernel keeps the invariant, if its own part does. -/
theorem Inv.goto {stage : TickStage} (h : Inv board ticks bank m)
    (hprogress : progress board c stage = progress board c (m.stage c))
    (hheld : held stage = held (m.stage c))
    (hfires : ∀ id, stage = .timer id → (m.timer c).Fires m.now) :
    Inv board ticks bank (m.goto c stage) where
  cpu d := by
    by_cases hdc : d = c
    · subst hdc
      exact (h.cpu d).goto hprogress hheld hfires
    · exact (h.cpu d).goto_other hdc
  dist := by
    refine h.dist_congr rfl ?_
    by_cases hc : 0 = c
    · rw [← hc] at hprogress ⊢
      rw [goto_stage, hprogress]
    · rw [goto_stage_of_ne m hc]

/-- The distributor, after a step of `init_per_cpu`. -/
theorem Inv.dist_exec {n : ℕ} {op : InitOp} (h : Inv board ticks bank m) (hstage : m.stage c = .init n)
    (hop : (initPerCpu board c tickMs)[n]? = some op) (hboard : board = .rpi5)
    (hle : distSteps ≤ (progress board 0
      (((m.exec frequency c op).goto c (.init (n + 1))).stage 0)).length) :
    (m.exec frequency c op).dCtlr = 0x3 := by
  subst hboard
  -- Everything but the last access of `init_dist` leaves the control register alone.
  have hkeep : (c = 0 → distSteps ≤ n) → (m.exec frequency c op).dCtlr = m.dCtlr := by
    intro hn
    cases op with
    | gic op => exact dCtlr_initCpu (mem_initCpu hop hn) _
    | initTick ms => rfl
    | enableTimer => rfl
    | enableIrq => rfl
  by_cases hc : 0 = c
  · rw [← hc, goto_stage] at hle
    have hlen : ((initPerCpu .rpi5 0 tickMs).take (n + 1)).length ≤ n + 1 := List.length_take_le ..
    rcases Nat.eq_or_lt_of_le (hle.trans hlen) with heq | hlt
    · rw [← hc] at hop
      rw [initPerCpu_dist hop heq.symm]
      rfl
    · have hn : distSteps ≤ n := Nat.le_of_lt_succ hlt
      rw [hkeep fun _ => hn]
      refine h.dist rfl ?_
      rw [hc, hstage]
      show distSteps ≤ ((initPerCpu .rpi5 c tickMs).take n).length
      have hlt' := (List.getElem?_eq_some_iff.mp hop).1
      rw [List.length_take]
      omega
  · rw [goto_stage_of_ne _ hc] at hle
    rw [hkeep fun h0 => absurd h0.symm hc]
    have hsame : (m.exec frequency c op).stage = m.stage := by cases op <;> rfl
    rw [hsame] at hle
    exact h.dist rfl hle

/-- So does one that goes on with another interrupt to end. -/
theorem Inv.setActive {stage : TickStage} (h : Inv board ticks bank m)
    (hprogress : progress board c stage = progress board c (m.stage c))
    (hfires : ∀ id, stage = .timer id → (m.timer c).Fires m.now) :
    Inv board ticks bank
      ({ m with bank := Function.update m.bank c { m.bank c with active := held stage } }.goto c
        stage) where
  cpu d := by
    by_cases hdc : d = c
    · subst hdc
      obtain ⟨hbank, -, hrouted, harmed, -⟩ := h.cpu d
      have hself : Function.update m.bank d { m.bank d with active := held stage } d =
          { m.bank d with active := held stage } := Function.update_self ..
      refine ⟨?_, ?_, ?_, ?_, ?_⟩
      · rw [goto_stage, hprogress]
        intro hboard
        rw [← hbank hboard]
        exact congrArg (fun b : Gic.Bank => { b with active := [] }) hself
      · rw [goto_stage]
        exact congrArg Gic.Bank.active hself
      · rw [goto_stage, hprogress]
        exact hrouted
      · rw [goto_stage, hprogress]
        exact fun hmem => ⟨(harmed hmem).kept, (harmed hmem).enabled, (harmed hmem).soon⟩
      · rw [goto_stage]
        exact hfires
    · exact (h.cpu d).congr (Function.update_of_ne hdc ..) rfl rfl (goto_stage_of_ne _ hdc _) le_rfl
        (.inl rfl)
  dist := by
    refine h.dist_congr rfl ?_
    by_cases hc : 0 = c
    · rw [← hc] at hprogress ⊢
      rw [goto_stage, hprogress]
    · rw [goto_stage_of_ne _ hc]

/-- What is read is the interrupt that is to be ended, if no CPU has sent it. -/
theorem acknowledge_eq {b : Gic.Bank} (hidle : b.active = []) {iar : UInt32}
    (hplain : iar &&& 0x3ff = iar) :
    acknowledge b iar = { b with active := held (afterAck (Gic.ackIrq iar)) } := by
  unfold acknowledge Gic.ackIrq
  dsimp only
  rw [hplain]
  by_cases hspurious : iar = Gic.spuriousIrq
  · rw [if_pos hspurious, if_pos hspurious]
    exact congrArg (fun l => { b with active := l }) hidle
  · rw [if_neg hspurious, if_neg hspurious, hidle, afterAck]
    split <;> rfl

/-- A CPU that was armed sets its timer anew. -/
theorem tick_eq (h : Armed ticks m c) (hpos : ticks ≠ 0) :
    m.tick c = { m with timer := Function.update m.timer c (setTimer m.now ticks) } := by
  rw [Ticker.tick, h.kept, if_pos hpos]

/-- `TICK_TICKS` is not zero. -/
theorem tickTicks_ne_zero (frequency ms : BitVec 64) : Kernel.tickTicks frequency ms ≠ 0 := by
  unfold Kernel.tickTicks
  dsimp only
  split
  · decide
  next hge =>
    intro hzero
    rw [hzero] at hge
    exact hge (by decide)

/-- The frequency of the counter has 32 bits, so the ticks are not taken for a negative number. -/
theorem tickTicks_lt (h : frequency.toNat < 2^32) :
    (Kernel.tickTicks frequency tickMs).toNat < 2^31 := by
  have hticks : (delayTicks frequency tickMs).toNat = frequency.toNat * 10 / 1000 := by
    unfold delayTicks tickMs
    rw [BitVec.toNat_udiv, BitVec.toNat_mul]
    have hmul : frequency.toNat * 10 % 2^64 = frequency.toNat * 10 := Nat.mod_eq_of_lt (by omega)
    exact congrArg (· / 1000) hmul
  unfold Kernel.tickTicks
  dsimp only
  split
  · decide
  · omega

/-- A CPU that has returned from `init_per_cpu` is armed. -/
theorem Inv.armed (h : Inv board ticks bank m)
    (hprogress : progress board c (m.stage c) = initPerCpu board c tickMs) : Armed ticks m c :=
  (h.cpu c).armed (hprogress ▸ List.mem_cons_self ..)

/-- A tick keeps the invariant. -/
theorem Inv.tick {id : Option UInt32} (hlt : ticks.toNat < 2^31) (hpos : ticks ≠ 0)
    (h : Inv board ticks bank m) (hstage : m.stage c = .timer id) :
    Inv board ticks bank ((m.tick c).goto c (.ticked id)) := by
  have hprogress : progress board c (m.stage c) = initPerCpu board c tickMs := by
    rw [hstage]
    rfl
  have harmed := h.armed hprogress
  rw [tick_eq harmed hpos]
  refine ⟨fun d => ?_, ?_⟩
  · by_cases hdc : d = c
    · subst hdc
      obtain ⟨hbank, hactive, hrouted, -, -⟩ := h.cpu d
      rw [hstage] at hbank hactive hrouted
      have hself : Function.update m.timer d (setTimer m.now ticks) d = setTimer m.now ticks :=
        Function.update_self ..
      refine ⟨?_, ?_, ?_, ?_, ?_⟩
      · rw [goto_stage]
        exact hbank
      · rw [goto_stage]
        exact hactive
      · rw [goto_stage]
        exact hrouted
      · intro _
        refine ⟨harmed.kept, congrArg Timer.enabled hself, ?_⟩
        refine le_of_eq ((congrArg Timer.cval hself).trans ?_)
        exact cval_setTimer hlt
      · rw [goto_stage]
        nofun
    · exact (h.cpu d).congr rfl rfl (Function.update_of_ne hdc ..) (goto_stage_of_ne _ hdc _) le_rfl
        (.inl rfl)
  · refine h.dist_congr rfl ?_
    by_cases hc : 0 = c
    · rw [← hc] at hstage ⊢
      rw [goto_stage, hstage]
      rfl
    · rw [goto_stage_of_ne _ hc]

/-- Every step keeps the invariant. -/
theorem Inv.step {e : TickEvent} (hlt : ticks.toNat < 2^31)
    (hticks : ticks = Kernel.tickTicks frequency tickMs) (h : Inv board ticks bank m)
    (hplain : e.Plain) (hs : Step board frequency m e m') :
    Inv board ticks bank m' := by
  cases hs with
  | pass n =>
    exact ⟨fun d => (h.cpu d).congr rfl rfl rfl rfl (Nat.le_add_right ..) (.inl rfl), h.dist⟩
  | @start c hstage => exact h.goto (by rw [hstage]; rfl) (by rw [hstage]; rfl) nofun
  | @init c n op hstage hop =>
    refine ⟨fun d => ?_, fun hboard hle => h.dist_exec hstage hop hboard hle⟩
    by_cases hdc : d = c
    · subst hdc
      exact (h.cpu d).exec hlt hticks hstage hop
    · exact (h.cpu d).exec_other hticks hdc hop
  | @finish c hstage =>
    refine h.goto ?_ (by rw [hstage]; rfl) nofun
    rw [hstage]
    exact (List.take_length ..).symm
  | @irq c hstage => exact h.goto (by rw [hstage]; rfl) (by rw [hstage]; rfl) nofun
  | @ack c iar hboard hstage hfires =>
    have hidle : (m.bank c).active = [] := by
      rw [(h.cpu c).active, hstage]
      rfl
    rw [acknowledge_eq hidle hplain]
    refine h.setActive ?_ fun id hid => hfires ?_
    · rw [hstage]
      cases Gic.ackIrq iar with
      | none => rfl
      | some id =>
        unfold afterAck
        dsimp only
        split <;> rfl
    · cases hack : Gic.ackIrq iar with
      | none =>
        rw [hack] at hid
        cases hid
      | some id' =>
        rw [hack, afterAck] at hid
        split at hid
        · cases hid
        next heq => rw [not_not.mp heq]
  | @pending c source hboard hstage hfires =>
    split
    next hsource =>
      exact h.goto (by rw [hstage]; rfl) (by rw [hstage]; rfl) fun _ _ => hfires hsource
    next => exact h.goto (by rw [hstage]; rfl) (by rw [hstage]; rfl) nofun
  | @tick c id hstage =>
    have hpos : ticks ≠ 0 := hticks ▸ tickTicks_ne_zero frequency tickMs
    exact h.tick hlt hpos hstage
  | @schedule c id hstage =>
    cases id with
    | none => exact h.goto (by rw [hstage]; rfl) (by rw [hstage]; rfl) nofun
    | some id => exact h.goto (by rw [hstage]; rfl) (by rw [hstage]; rfl) nofun
  | @eoi c id b hstage hb =>
    have hheld : (m.bank c).active = [id] := by
      rw [(h.cpu c).active, hstage]
      rfl
    have hnext : progress board c .running = progress board c (m.stage c) := by rw [hstage]; rfl
    rw [hb [] hheld]
    exact h.setActive hnext nofun

/-- The invariant holds before any CPU is started. -/
theorem Inv.boot (board : Board) (ticks : BitVec 64) (now : ℕ) (timer : Cpu → Timer) (dCtlr : UInt32)
    (bank : Cpu → Gic.Bank) (ctrl : Cpu → UInt32) :
    Inv board ticks bank (boot now timer dCtlr bank ctrl) where
  cpu _ := ⟨fun _ => rfl, rfl, nofun, nofun, nofun⟩
  dist _ hle := absurd hle (show ¬distSteps ≤ 0 by decide)

/-- A CPU that has returned from `init_per_cpu` has done all of it. -/
theorem Past.progress (h : m.Past c) : progress board c (m.stage c) = initPerCpu board c tickMs := by
  obtain ⟨hoff, hinit⟩ := h
  cases hstage : m.stage c with
  | off => exact absurd hstage hoff
  | init n => exact absurd hstage (hinit n)
  | running => rfl
  | irq => rfl
  | timer id => rfl
  | ticked id => rfl
  | ending id => rfl

/-- A CPU that takes interrupts is interrupted when its timer fires. -/
theorem Inv.signalled (h : Inv board ticks bank m) (hstage : m.stage c = .running)
    (hcval : (m.timer c).cval ≤ m.now) (hdist : board = .rpi5 → m.Past 0) : Signalled board m c := by
  have hprogress : Kernel.progress board c (m.stage c) = initPerCpu board c tickMs := by
    rw [hstage]
    rfl
  obtain ⟨hbank, hactive, hrouted, -, -⟩ := h.cpu c
  refine ⟨⟨(h.armed hprogress).enabled, hcval⟩, ?_⟩
  cases board with
  | qemu =>
    show m.timerIntCtrl c &&& cntpIrqBit ≠ 0
    rw [hrouted (by rw [hprogress]; exact .tail _ (.head _))]
    decide
  | rpi5 =>
    have hctlr : m.dCtlr = 0x3 := by
      refine h.dist rfl ?_
      rw [(hdist rfl).progress]
      decide
    have hidle : (m.bank c).active = [] := by
      rw [hactive, hstage]
      rfl
    have hready : (m.bank c).Ready := by
      have hrun := hbank rfl
      rw [hprogress, gicOps_initPerCpu] at hrun
      have hinit := ready_initGic { bank c with active := [] } c
      rw [← hrun] at hinit
      exact ⟨hinit.igroupr0, hinit.enabled, hinit.priority, hinit.ctlr, hinit.pmr⟩
    show Gic.Signals m.dCtlr (m.bank c) Gic.timerIrqId
    rw [hctlr]
    exact hready.signals hidle

end Invariant

end Ticker

/-! ## Runs -/

open Ticker

section Runs

variable {board : Board} {frequency ticks : BitVec 64} {bank : Cpu → Gic.Bank} {start m m' : Ticker}
  {ts : List (Transition Ticker TickEvent)} {c : Cpu}

/-- The ticks of a CPU are apart, its timer fires a tick after the last one, and there is none before it
has returned from `init_per_cpu`. -/
structure Spaced (ticks : BitVec 64) (m : Ticker) (c : Cpu)
    (ts : List (Transition Ticker TickEvent)) : Prop where
  apart : (tickTimes c ts).Pairwise fun later earlier => earlier + ticks.toNat ≤ later
  last : ∀ n ∈ tickTimes c ts, (n : ℤ) + ticks.toNat ≤ (m.timer c).cval
  early : ¬m.Past c → tickTimes c ts = []

/-- A step that is no tick of the CPU. -/
theorem tickTimes_cons {e : TickEvent} (htick : e ≠ .tick c) :
    tickTimes c (⟨m, e, m'⟩ :: ts) = tickTimes c ts := by
  refine List.filterMap_cons_none ?_
  cases e with
  | tick d => exact if_neg fun hdc => htick (congrArg _ hdc)
  | _ => rfl

/-- A CPU that has not ticked. -/
theorem Spaced.of_nil (h : tickTimes c ts = []) : Spaced ticks m c ts := by
  refine ⟨h ▸ .nil, ?_, fun _ => h⟩
  rw [h]
  nofun

/-- A step that is no tick of the CPU, and leaves its timer alone. -/
theorem Spaced.congr {e : TickEvent} (h : Spaced ticks m c ts) (htimer : m'.timer c = m.timer c)
    (hpast : m.Past c → m'.Past c) (htick : e ≠ .tick c) : Spaced ticks m' c (⟨m, e, m'⟩ :: ts) := by
  have hsame : tickTimes c (⟨m, e, m'⟩ :: ts) = tickTimes c ts := tickTimes_cons htick
  refine ⟨hsame ▸ h.apart, ?_, fun hearly => hsame.trans (h.early fun hp => hearly (hpast hp))⟩
  rw [hsame, htimer]
  exact h.last

/-- A CPU that goes on in the kernel has returned from `init_per_cpu`. -/
theorem Ticker.Past.goto {stage : TickStage} {d : Cpu} (h : m.Past c) (hoff : stage ≠ .off)
    (hinit : ∀ n, stage ≠ .init n) : (m.goto d stage).Past c := by
  by_cases hdc : c = d
  · subst hdc
    rw [Past, goto_stage]
    exact ⟨hoff, hinit⟩
  · rw [Past, goto_stage_of_ne _ hdc]
    exact h

/-- Every step keeps the ticks apart. -/
theorem Spaced.step {e : TickEvent} (hlt : ticks.toNat < 2^31) (hpos : ticks ≠ 0)
    (hinv : Ticker.Inv board ticks bank m) (h : Spaced ticks m c ts) (hs : Ticker.Step board frequency m e m') :
    Spaced ticks m' c (⟨m, e, m'⟩ :: ts) := by
  cases hs with
  | pass n => exact h.congr rfl id nofun
  | @start d hstage =>
    by_cases hdc : c = d
    · subst hdc
      have hnil := h.early fun hpast => hpast.1 hstage
      exact .of_nil ((tickTimes_cons (e := .start c) nofun).trans hnil)
    · refine h.congr rfl (fun hpast => ?_) nofun
      rw [Past, goto_stage_of_ne _ hdc]
      exact hpast
  | @init d n op hstage hop =>
    by_cases hdc : c = d
    · subst hdc
      have hnil := h.early fun hpast => hpast.2 n hstage
      exact .of_nil ((tickTimes_cons (e := .init c) nofun).trans hnil)
    · have htimer : ((m.exec frequency d op).goto d (.init (n + 1))).timer c = m.timer c := by
        cases op with
        | initTick ms => exact Function.update_of_ne hdc ..
        | gic op => rfl
        | enableTimer => rfl
        | enableIrq => rfl
      have hsame : (m.exec frequency d op).stage = m.stage := by cases op <;> rfl
      refine h.congr htimer (fun hpast => ?_) nofun
      rw [Past, goto_stage_of_ne _ hdc, hsame]
      exact hpast
  | finish hstage => exact h.congr rfl (fun hp => hp.goto nofun nofun) nofun
  | irq hstage => exact h.congr rfl (fun hp => hp.goto nofun nofun) nofun
  | @ack d iar hboard hstage hfires =>
    refine h.congr rfl (fun hp => ?_) nofun
    have hp' : Past { m with bank := Function.update m.bank d (acknowledge (m.bank d) iar) } c := hp
    cases Gic.ackIrq iar with
    | none => exact hp'.goto nofun nofun
    | some id =>
      unfold afterAck
      dsimp only
      split <;> exact hp'.goto nofun nofun
  | pending hboard hstage hfires =>
    refine h.congr rfl (fun hp => ?_) nofun
    split <;> exact hp.goto nofun nofun
  | @tick d id hstage =>
    have hprogress : progress board d (m.stage d) = initPerCpu board d tickMs := by
      rw [hstage]
      rfl
    rw [tick_eq (hinv.armed hprogress) hpos]
    by_cases hdc : c = d
    · subst hdc
      have htimes : ∀ m', tickTimes c (⟨m, .tick c, m'⟩ :: ts) = m.now :: tickTimes c ts :=
        fun m' => List.filterMap_cons_some (if_pos rfl)
      have hcval : (Function.update m.timer c (setTimer m.now ticks) c).cval =
          m.now + (ticks.toNat : ℤ) := by
        rw [Function.update_self, cval_setTimer hlt]
      -- The timer fired, so the tick before is as far back as it was set for.
      have hfired := ((hinv.cpu c).fires id hstage).2
      refine ⟨?_, ?_, fun hearly => absurd ?_ hearly⟩
      · rw [htimes, List.pairwise_cons]
        refine ⟨fun n hn => ?_, h.apart⟩
        have hlast := h.last n hn
        omega
      · rw [htimes]
        intro n hn
        show (n : ℤ) + ticks.toNat ≤ (Function.update m.timer c (setTimer m.now ticks) c).cval
        rw [hcval]
        rcases List.mem_cons.mp hn with rfl | hn
        · exact le_rfl
        · have hlast := h.last n hn
          omega
      · rw [Past, goto_stage]
        exact ⟨nofun, nofun⟩
    · refine h.congr (Function.update_of_ne hdc ..) (fun hp => ?_) fun he => hdc ?_
      · have hp' : Past { m with timer := Function.update m.timer d (setTimer m.now ticks) } c := hp
        exact hp'.goto nofun nofun
      · exact (TickEvent.tick.inj he).symm
  | @schedule d id hstage =>
    refine h.congr rfl (fun hp => ?_) nofun
    cases id <;> exact hp.goto nofun nofun
  | @eoi d id b hstage hb =>
    refine h.congr rfl (fun hp => ?_) nofun
    have hp' : Past { m with bank := Function.update m.bank d b } c := hp
    exact hp'.goto nofun nofun

end Runs

/-- In every run, on either board, whatever the registers held before, and in whatever order the CPUs
initialize their interrupts: a CPU that takes interrupts has none to end, and its timer fires within
`TICK_TICKS`, and then it is interrupted, on `rpi5` as soon as CPU 0 has returned from `init_per_cpu`;
the interrupt that is ended is always the only one that was acknowledged and not ended; and between two
ticks of a CPU at least `TICK_TICKS` pass. -/
theorem ticks_go_on (board : Board) (frequency : BitVec 64) (hfrequency : frequency.toNat < 2^32)
    (now : ℕ) (timer : Cpu → Timer) (dCtlr : UInt32) (bank : Cpu → Gic.Bank) (ctrl : Cpu → UInt32)
    (ts : List (Transition Ticker TickEvent)) (m : Ticker)
    (h : Trace (Ticker.boot now timer dCtlr bank ctrl) (Ticker.Step board frequency) ts m)
    (hplain : ∀ t ∈ ts, t.act.Plain) :
    (∀ c, m.stage c = .running → (m.bank c).active = [] ∧
      (m.timer c).cval ≤ m.now + ((tickTicks frequency tickMs).toNat : ℤ) ∧
      ((m.timer c).cval ≤ m.now → (board = .rpi5 → m.Past 0) → Signalled board m c)) ∧
      (∀ t ∈ ts, ∀ c b, t.act = .eoi c b →
        ∃ id, t.pre.stage c = .ending id ∧ (t.pre.bank c).active = [id]) ∧
      ∀ c, (tickTimes c ts).Pairwise fun later earlier =>
        earlier + (tickTicks frequency tickMs).toNat ≤ later := by
  have hlt := tickTicks_lt hfrequency
  have hpos := tickTicks_ne_zero frequency tickMs
  have hrun : Trace (Ticker.boot now timer dCtlr bank ctrl) (fun m e m' =>
      e.Plain ∧ Ticker.Step board frequency m e m') ts m :=
    h.restrict hplain
  have hboot := Ticker.Inv.boot board (tickTicks frequency tickMs) now timer dCtlr bank ctrl
  have hkeep : ∀ m e m', Ticker.Inv board (tickTicks frequency tickMs) bank m →
      e.Plain ∧ Ticker.Step board frequency m e m' →
        Ticker.Inv board (tickTicks frequency tickMs) bank m' :=
    fun _ _ _ hinv hs => hinv.step hlt rfl hs.1 hs.2
  have hinv := hrun.inv hboot hkeep
  refine ⟨fun c hstage => ⟨?_, ?_, fun hcval hdist => hinv.signalled hstage hcval hdist⟩,
    fun t ht c b hact => ?_, fun c => ?_⟩
  · rw [(hinv.cpu c).active, hstage]
    rfl
  · have hprogress : progress board c (m.stage c) = initPerCpu board c tickMs := by
      rw [hstage]
      rfl
    exact (hinv.armed hprogress).soon
  · obtain ⟨hpre, -, hs⟩ := hrun.of_mem hboot hkeep t ht
    obtain ⟨pre, act, post⟩ := t
    dsimp only at hact hs hpre ⊢
    subst hact
    cases hs with
    | @eoi c id b hstage hb =>
      refine ⟨id, hstage, ?_⟩
      rw [(hpre.cpu c).active, hstage]
      rfl
  · have hspaced : Spaced (tickTicks frequency tickMs) m c ts := by
      clear hinv hplain h
      induction hrun with
      | nil => exact .of_nil rfl
      | cons ht hs ih => exact ih.step hlt hpos (ht.inv hboot hkeep) hs.2
    exact hspaced.apart

/-- A CPU in `init_per_cpu` gets to its end. -/
theorem exists_init {board : Board} {frequency : BitVec 64} {start m : Ticker} {c : Cpu}
    {ts : List (Transition Ticker TickEvent)} (h : Trace start (Ticker.Step board frequency) ts m) {k n : ℕ}
    (hlen : n + k = (initPerCpu board c tickMs).length) (hstage : m.stage c = .init n) :
    ∃ us m', Trace start (Ticker.Step board frequency) (us ++ ts) m' ∧
      m'.stage c = .init (initPerCpu board c tickMs).length ∧ ∀ t ∈ us, t.act = .init c := by
  induction k generalizing n m ts with
  | zero => exact ⟨[], m, h, hlen ▸ hstage, nofun⟩
  | succ k ih =>
    have hn : n < (initPerCpu board c tickMs).length := by omega
    have hs : Ticker.Step board frequency m (.init c) _ := .init hstage (List.getElem?_eq_getElem hn)
    obtain ⟨us, m', htrace, hend, hacts⟩ := ih (h.cons hs) (by omega) (goto_stage _ c _)
    rw [List.append_cons] at htrace
    refine ⟨_, m', htrace, hend, fun t ht => ?_⟩
    rcases List.mem_append.mp ht with ht | ht
    · exact hacts t ht
    · rw [List.mem_singleton.mp ht]

/-- All registers are zero. -/
def zeroTicker : Ticker :=
  Ticker.boot 0 (fun _ => ⟨false, 0⟩) 0 (fun _ => ⟨0, 0, fun _ => 0, 0, 0, 0, []⟩) fun _ => 0

/-- `ticks_go_on` for CPU 1 of `rpi5`, which is interrupted once, by nothing. -/
theorem ticks_go_on_spurious : ∃ ts m, Trace zeroTicker (Ticker.Step .rpi5 54000000) ts m ∧
    m.stage 1 = .running ∧ (m.timer 1).cval ≤ m.now + 540000 := by
  have hstart : Ticker.Step .rpi5 54000000 zeroTicker (.start 1) (zeroTicker.goto 1 (.init 0)) := .start rfl
  obtain ⟨us, m, htrace, hend, hacts⟩ :=
    exists_init (c := 1) (k := 9) (.cons .nil hstart) rfl (goto_stage ..)
  have hirq : Ticker.Step .rpi5 54000000 (m.goto 1 .running) (.irq 1) _ := .irq (goto_stage ..)
  have hack : Ticker.Step .rpi5 54000000 ((m.goto 1 .running).goto 1 .irq) (.ack 1 1023) _ :=
    .ack rfl (goto_stage ..) nofun
  have hrun := ((htrace.cons (.finish hend)).cons hirq).cons hack
  have hinit : ∀ t ∈ us, t.act.Plain := fun t ht => hacts t ht ▸ trivial
  refine ⟨_, _, hrun, goto_stage .., ?_⟩
  refine ((ticks_go_on .rpi5 54000000 (by decide) _ _ _ _ _ _ _ hrun ?_).1 1 (goto_stage ..)).2.1
  simp only [List.forall_mem_cons, List.forall_mem_append]
  exact ⟨rfl, trivial, trivial, hinit, trivial, nofun⟩

end Ralix.Kernel
