import Ralix.Lib.Word

/-!
# The interrupt controller

`src/drivers/gic.rs`: the registers of the distributor and of a CPU's interface that it accesses, and
what the accesses do to them. Those for the first 32 interrupts are banked, so a CPU has them to itself. The
control register of the distributor is shared.

The rest is what the architecture says of the controller: which interrupts it signals to a CPU
(`Signals`). A CPU ends the interrupt that it acknowledged last before any other.
-/

namespace Ralix.Drivers.Gic

/-- The registers of the controller that are written. -/
inductive Reg where
  | dCtlr
  | dIgroupr0
  | dIsenabler0
  | dIcenabler0
  | dIpriorityr (word : Fin 8)
  | cCtlr
  | cPmr
  | cBpr
deriving DecidableEq, Repr

/-- An access to a register: a write, or a write of what is made of the value that is there. -/
inductive Op where
  | write (reg : Reg) (value : UInt32)
  | modify (reg : Reg) (f : UInt32 → UInt32)

def spuriousIrq : UInt32 := 1023
def timerPpi : UInt32 := 30

/-- The word of the priority registers that an interrupt is in. -/
def priorityWord (irq : UInt32) : Fin 8 := Fin.ofNat 8 (irq.toNat / 4)

/-- Where in its word the priority of an interrupt is. -/
def priorityShift (irq : UInt32) : UInt32 := (irq &&& 3) * 8

/-- `set_priority`. -/
def setPriority (irq : UInt32) (prio : UInt8) : Op :=
  let shift := priorityShift irq
  .modify (.dIpriorityr (priorityWord irq)) fun val =>
    (val &&& ~~~(0xFF <<< shift)) ||| prio.toUInt32 <<< shift

/-- `enable_timer_ppi`. -/
def enableTimerPpi : Op := .write .dIsenabler0 ((1 : UInt32) <<< timerPpi)

/-- `init_dist`. -/
def initDist : List Op :=
  [.write .dCtlr 0, .write .dIgroupr0 0xFFFFFFFF, .write .dIcenabler0 0xFFFFFFFF,
    setPriority timerPpi 0x80, .write .dCtlr 0x3]

/-- `init_cpu`. -/
def initCpu : List Op :=
  [.write .cCtlr 0, .write .cPmr 0xFF, .write .cBpr 0, .write .cCtlr 0x3,
    .write .dIgroupr0 0xFFFFFFFF, setPriority timerPpi 0x80, enableTimerPpi]

/-- `ack_irq`, for the value that is read from `GICC_IAR`. -/
def ackIrq (iar : UInt32) : Option UInt32 :=
  let id := iar &&& 0x3ff
  if id = spuriousIrq then none else some id

/-- `timer_irq_id`. -/
def timerIrqId : UInt32 := timerPpi

/-! ## The controller -/

/-- The registers that a CPU has to itself, and the interrupts that it has acknowledged and not ended,
the latest first. -/
structure Bank where
  igroupr0 : UInt32
  enabled0 : UInt32
  ipriorityr : Fin 8 → UInt32
  ctlr : UInt32
  pmr : UInt32
  bpr : UInt32
  active : List UInt32

/-- The registers of a CPU after a write. -/
def Bank.store (b : Bank) (v : UInt32) : Reg → Bank
  | .dCtlr => b
  | .dIgroupr0 => { b with igroupr0 := v }
  | .dIsenabler0 => { b with enabled0 := b.enabled0 ||| v }
  | .dIcenabler0 => { b with enabled0 := b.enabled0 &&& ~~~v }
  | .dIpriorityr word => { b with ipriorityr := Function.update b.ipriorityr word v }
  | .cCtlr => { b with ctlr := v }
  | .cPmr => { b with pmr := v }
  | .cBpr => { b with bpr := v }

/-- What is read from a register. -/
def Bank.load (b : Bank) (dCtlr : UInt32) : Reg → UInt32
  | .dCtlr => dCtlr
  | .dIgroupr0 => b.igroupr0
  | .dIsenabler0 | .dIcenabler0 => b.enabled0
  | .dIpriorityr word => b.ipriorityr word
  | .cCtlr => b.ctlr
  | .cPmr => b.pmr
  | .cBpr => b.bpr

/-- The controller, as a CPU sees it. -/
structure View where
  dCtlr : UInt32
  bank : Bank

/-- The controller after an access. -/
def Op.apply (s : View) : Op → View
  | write reg v => ⟨if reg = .dCtlr then v else s.dCtlr, s.bank.store v reg⟩
  | modify reg f =>
    let v := f (s.bank.load s.dCtlr reg)
    ⟨if reg = .dCtlr then v else s.dCtlr, s.bank.store v reg⟩

/-- The priority of an interrupt. The lower it is, the more urgent is the interrupt. -/
def Bank.priority (b : Bank) (irq : UInt32) : UInt8 :=
  (b.ipriorityr (priorityWord irq) >>> priorityShift irq).toUInt8

/-- The bit of an interrupt, in the registers that have a bit for each. -/
def bit (word irq : UInt32) : UInt32 := (word >>> irq) &&& 1

/-- A CPU that has no other interrupt to end is signalled a pending one if the distributor and the
interface forward its group, it is enabled, and its priority is above the mask of the CPU. -/
structure Signals (dCtlr : UInt32) (b : Bank) (irq : UInt32) : Prop where
  distributor : bit dCtlr (bit b.igroupr0 irq) = 1
  interface : bit b.ctlr (bit b.igroupr0 irq) = 1
  enabled : bit b.enabled0 irq = 1
  priority : (b.priority irq).toUInt32 < b.pmr
  idle : b.active = []

/-! ## What is written is there -/

/-- A field of eight bits is set, whatever the word held. -/
theorem field_set (val : UInt32) (p : UInt8) {s : UInt32} (hs : s.toNat ≤ 24) :
    (((val &&& ~~~(0xFF <<< s)) ||| p.toUInt32 <<< s) >>> s).toUInt8 = p := by
  apply UInt8.eq_of_toBitVec_eq
  have hmod : s.toNat % 32 = s.toNat := Nat.mod_eq_of_lt (by omega)
  have hones : ∀ i, i < 8 → (255#32).getLsbD i = true := by decide
  apply BitVec.eq_of_getLsbD_eq
  intro i hi
  have hlt : s.toNat + i < 32 := by omega
  have hle : ¬s.toNat + i < s.toNat := by omega
  have hlt' : i < 32 := by omega
  have hone : (255#32)[i] = true := by
    rw [← BitVec.getLsbD_eq_getElem hlt']
    exact hones i hi
  simp [hmod, hlt, hle, hlt', hi, hone]

/-- A bit is set, whatever the word held. -/
theorem bit_set (e : UInt32) {irq : UInt32} (h : irq.toNat < 32) :
    bit (e ||| 1 <<< irq) irq = 1 := by
  apply UInt32.eq_of_toBitVec_eq
  have hmod : irq.toNat % 32 = irq.toNat := Nat.mod_eq_of_lt h
  unfold bit
  ext i hi
  by_cases hzero : i = 0
  · subst hzero
    simp [hmod, h]
  · simp [hmod, hzero]

/-- A priority is set. -/
theorem priority_setPriority (s : View) (prio : UInt8) :
    ((setPriority timerPpi prio).apply s).bank.priority timerPpi = prio := by
  have hshift : (priorityShift timerPpi).toNat ≤ 24 := by decide
  unfold Bank.priority setPriority Op.apply Bank.store
  dsimp only
  rw [Function.update_self]
  exact field_set _ prio hshift

/-- The controller after some accesses. -/
def run (s : View) (ops : List Op) : View := ops.foldl Op.apply s

/-- The registers of a CPU after `init_cpu`. -/
structure Bank.Ready (b : Bank) : Prop where
  igroupr0 : b.igroupr0 = 0xFFFFFFFF
  enabled : bit b.enabled0 timerIrqId = 1
  priority : b.priority timerIrqId = 0x80
  ctlr : b.ctlr = 0x3
  pmr : b.pmr = 0xFF

/-- Whatever the registers held, `init_cpu` leaves them ready for the timer, and the rest as it was. -/
theorem initCpu_ready (s : View) : (run s initCpu).bank.Ready ∧ (run s initCpu).dCtlr = s.dCtlr ∧
    (run s initCpu).bank.active = s.bank.active := by
  refine ⟨⟨rfl, ?_, ?_, rfl, rfl⟩, rfl, rfl⟩
  · exact bit_set s.bank.enabled0 (by decide)
  · exact priority_setPriority (run s [.write .cCtlr 0, .write .cPmr 0xFF, .write .cBpr 0,
      .write .cCtlr 0x3, .write .dIgroupr0 0xFFFFFFFF]) 0x80

/-- After `init_dist`, the distributor forwards both groups. -/
theorem initDist_dCtlr (s : View) : (run s initDist).dCtlr = 0x3 ∧
    (run s initDist).bank.active = s.bank.active := ⟨rfl, rfl⟩

/-- A CPU that is ready, and that has no interrupt to end, is signalled the timer. -/
theorem Bank.Ready.signals {b : Bank} (h : b.Ready) (hidle : b.active = []) :
    Signals 0x3 b timerIrqId := by
  have hgroup : bit b.igroupr0 timerIrqId = 1 := by
    rw [h.igroupr0]
    decide
  refine ⟨?_, ?_, h.enabled, ?_, hidle⟩
  · rw [hgroup]
    decide
  · rw [hgroup, h.ctlr]
    decide
  · rw [h.priority, h.pmr]
    decide

end Ralix.Drivers.Gic
