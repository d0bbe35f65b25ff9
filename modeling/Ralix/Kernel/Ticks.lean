import Ralix.Drivers.Gic
import Ralix.Kernel.Sleep
import Ralix.Lib.Trace
import Ralix.Platform.Board

/-!
# The tick

`src/kernel/interrupts.rs` with the timers of the CPUs and the interrupt controllers of the two boards.
Each CPU runs `init_per_cpu`, step by step and beside the others. From then on its timer interrupts it,
and `irq_handler` acknowledges the interrupt, sets the timer anew, calls the scheduler, and ends the
interrupt. `rpi5` has the controller of `src/drivers/gic.rs`, and `qemu` the one of
`src/drivers/local_intc.rs`, which knows neither acknowledgements nor ends.
-/

namespace Ralix.Kernel

open Lib Arch Platform Drivers

/-! ## Timers -/

/-- The timer of a CPU, and the count at which it fires. -/
structure Timer where
  enabled : Bool
  cval : ℤ

/-- The timer fires while the count has been reached. -/
def Timer.Fires (t : Timer) (now : ℕ) : Prop := t.enabled = true ∧ t.cval ≤ now

/-- `set_timer`. The register takes the low 32 bits, as a signed number. -/
def setTimer (now : ℕ) (ticks : BitVec 64) : Timer := ⟨true, now + (ticks.setWidth 32).toInt⟩

/-- What `init_tick` puts into `TICK_TICKS`. -/
def tickTicks (frequency ms : BitVec 64) : BitVec 64 :=
  let ticks := delayTicks frequency ms
  if ticks < 1 then 1 else ticks

/-! ## Initialization -/

/-- A step of `init_per_cpu`. -/
inductive InitOp where
  /-- `init_tick`. -/
  | initTick (ms : BitVec 64)
  /-- An access of `init_dist` or `init_cpu`. -/
  | gic (op : Gic.Op)
  /-- `enable_generic_timer_irq`. -/
  | enableTimer
  /-- `enable_irq`. -/
  | enableIrq

def cntpIrqBit : UInt32 := (1 : UInt32) <<< 1

/-- The accesses to the controller of `rpi5` in `init_per_cpu`. -/
def initGic (cpu : Cpu) : List Gic.Op := (if cpu = 0 then Gic.initDist else []) ++ Gic.initCpu

/-- The accesses to the controller in `init_per_cpu`. -/
def initController (board : Board) (cpu : Cpu) : List InitOp :=
  match board with
  | .rpi5 => (initGic cpu).map .gic
  | .qemu => [.enableTimer]

/-- `init_per_cpu`. The line that it writes to the UART is left out. -/
def initPerCpu (board : Board) (cpu : Cpu) (tickMs : BitVec 64) : List InitOp :=
  .initTick tickMs :: (initController board cpu ++ [.enableIrq])

/-- The milliseconds that both callers of `init_per_cpu` ask for. -/
def tickMs : BitVec 64 := 10

/-! ## The machine -/

/-- Where a CPU is. -/
inductive TickStage where
  /-- It has not called `init_per_cpu`. -/
  | off
  /-- It has done so many steps of `init_per_cpu`. -/
  | init (n : ℕ)
  /-- It takes interrupts. -/
  | running
  /-- In `irq_handler`, which does not yet know what interrupted it. -/
  | irq
  /-- In `irq_handler`, for the timer, with the interrupt that it has to end, if any. -/
  | timer (id : Option UInt32)
  /-- The timer is set anew, and the scheduler is called. -/
  | ticked (id : Option UInt32)
  /-- Before the end of an interrupt. -/
  | ending (id : UInt32)

/-- The machine. -/
structure Ticker where
  /-- The counter, which all CPUs share. -/
  now : ℕ
  /-- `TICK_TICKS`. -/
  tickTicks : BitVec 64
  timer : Cpu → Timer
  dCtlr : UInt32
  bank : Cpu → Gic.Bank
  /-- The registers that `enable_generic_timer_irq` writes to. -/
  timerIntCtrl : Cpu → UInt32
  stage : Cpu → TickStage

/-- What happens. -/
inductive TickEvent where
  /-- Time passes. -/
  | pass (n : ℕ)
  /-- A CPU calls `init_per_cpu`, -/
  | start (c : Cpu)
  /-- does its next step, -/
  | init (c : Cpu)
  /-- and returns from it. -/
  | finish (c : Cpu)
  /-- A CPU is interrupted. -/
  | irq (c : Cpu)
  /-- `ack_irq`, with the value that is read. -/
  | ack (c : Cpu) (iar : UInt32)
  /-- `generic_timer_pending`, with the value that is read. -/
  | pending (c : Cpu) (source : UInt32)
  /-- `keyboard::poll` and `timer::tick`. -/
  | tick (c : Cpu)
  /-- `schedule_from_irq`. -/
  | schedule (c : Cpu)
  /-- `end_irq`, and the registers of the CPU after it. -/
  | eoi (c : Cpu) (bank : Gic.Bank)

/-- What is read is the number of an interrupt, and no more. The number of a CPU is above it if that CPU
has sent the interrupt, which none does. -/
def TickEvent.Plain : TickEvent → Prop
  | ack _ iar => iar &&& 0x3ff = iar
  | _ => True

namespace Ticker

/-- The machine before any CPU is started, whatever its registers hold. -/
def boot (now : ℕ) (timer : Cpu → Timer) (dCtlr : UInt32) (bank : Cpu → Gic.Bank)
    (timerIntCtrl : Cpu → UInt32) : Ticker where
  now := now
  tickTicks := 0
  timer := timer
  dCtlr := dCtlr
  bank c := { bank c with active := [] }
  timerIntCtrl := timerIntCtrl
  stage _ := .off

/-- A CPU goes on to a stage. -/
def goto (m : Ticker) (c : Cpu) (stage : TickStage) : Ticker :=
  { m with stage := Function.update m.stage c stage }

@[simp] theorem goto_stage (m : Ticker) (c : Cpu) (stage : TickStage) :
    (m.goto c stage).stage c = stage := Function.update_self ..

/-- The other CPUs stay where they are. -/
theorem goto_stage_of_ne (m : Ticker) {c d : Cpu} (hdc : d ≠ c) (stage : TickStage) :
    (m.goto c stage).stage d = m.stage d := Function.update_of_ne hdc ..

/-- A step of `init_per_cpu` on a CPU. -/
def exec (frequency : BitVec 64) (m : Ticker) (c : Cpu) : InitOp → Ticker
  | .initTick ms =>
    let ticks := Kernel.tickTicks frequency ms
    { m with tickTicks := ticks, timer := Function.update m.timer c (setTimer m.now ticks) }
  | .gic op =>
    let v := op.apply ⟨m.dCtlr, m.bank c⟩
    { m with dCtlr := v.dCtlr, bank := Function.update m.bank c v.bank }
  | .enableTimer => { m with timerIntCtrl := Function.update m.timerIntCtrl c cntpIrqBit }
  | .enableIrq => m

/-- `tick`. -/
def tick (m : Ticker) (c : Cpu) : Ticker :=
  if m.tickTicks ≠ 0 then
    { m with timer := Function.update m.timer c (setTimer m.now m.tickTicks) }
  else m

/-- What `irq_handler` does next when it has read which interrupt there is. -/
def afterAck : Option UInt32 → TickStage
  | none => .running
  | some id => if id ≠ Gic.timerIrqId then .ending id else .timer (some id)

/-- What `irq_handler` does next when the scheduler has returned. -/
def afterSchedule : Option UInt32 → TickStage
  | none => .running
  | some id => .ending id

/-- The registers of a CPU after it has read `GICC_IAR`: the interrupt is active, if there is one. -/
def acknowledge (b : Gic.Bank) (iar : UInt32) : Gic.Bank :=
  if iar &&& 0x3ff = Gic.spuriousIrq then b else { b with active := iar :: b.active }

/-- One step. The timer is the interrupt that is read only while the timer fires. What the end of an
interrupt does that was not acknowledged last is not said. -/
inductive Step (board : Board) (frequency : BitVec 64) : Ticker → TickEvent → Ticker → Prop
  | pass {m : Ticker} (n : ℕ) : Step board frequency m (.pass n) { m with now := m.now + n }
  | start {m : Ticker} {c : Cpu} : m.stage c = .off →
      Step board frequency m (.start c) (m.goto c (.init 0))
  | init {m : Ticker} {c : Cpu} {n : ℕ} {op : InitOp} : m.stage c = .init n →
      (initPerCpu board c tickMs)[n]? = some op →
      Step board frequency m (.init c) ((m.exec frequency c op).goto c (.init (n + 1)))
  | finish {m : Ticker} {c : Cpu} : m.stage c = .init (initPerCpu board c tickMs).length →
      Step board frequency m (.finish c) (m.goto c .running)
  | irq {m : Ticker} {c : Cpu} : m.stage c = .running →
      Step board frequency m (.irq c) (m.goto c .irq)
  | ack {m : Ticker} {c : Cpu} {iar : UInt32} : board = .rpi5 → m.stage c = .irq →
      (Gic.ackIrq iar = some Gic.timerIrqId → (m.timer c).Fires m.now) →
      Step board frequency m (.ack c iar)
        ({ m with bank := Function.update m.bank c (acknowledge (m.bank c) iar) }.goto c
          (afterAck (Gic.ackIrq iar)))
  | pending {m : Ticker} {c : Cpu} {source : UInt32} : board = .qemu → m.stage c = .irq →
      (source &&& cntpIrqBit ≠ 0 → (m.timer c).Fires m.now) →
      Step board frequency m (.pending c source)
        (m.goto c (if source &&& cntpIrqBit ≠ 0 then .timer none else .running))
  | tick {m : Ticker} {c : Cpu} {id : Option UInt32} : m.stage c = .timer id →
      Step board frequency m (.tick c) ((m.tick c).goto c (.ticked id))
  | schedule {m : Ticker} {c : Cpu} {id : Option UInt32} : m.stage c = .ticked id →
      Step board frequency m (.schedule c) (m.goto c (afterSchedule id))
  | eoi {m : Ticker} {c : Cpu} {id : UInt32} {bank : Gic.Bank} : m.stage c = .ending id →
      (∀ rest, (m.bank c).active = id :: rest → bank = { m.bank c with active := rest }) →
      Step board frequency m (.eoi c bank)
        ({ m with bank := Function.update m.bank c bank }.goto c .running)

/-- A CPU has returned from `init_per_cpu`. -/
def Past (m : Ticker) (c : Cpu) : Prop := m.stage c ≠ .off ∧ ∀ n, m.stage c ≠ .init n

/-- The timer interrupts a CPU that takes interrupts. -/
def Signalled (board : Board) (m : Ticker) (c : Cpu) : Prop :=
  (m.timer c).Fires m.now ∧
    match board with
    | .rpi5 => Gic.Signals m.dCtlr (m.bank c) Gic.timerIrqId
    | .qemu => m.timerIntCtrl c &&& cntpIrqBit ≠ 0

end Ticker

/-- The counts at which a CPU ticked in a run, the latest first. -/
def tickTimes (c : Cpu) (ts : List (Transition Ticker TickEvent)) : List ℕ :=
  ts.filterMap fun t =>
    match t.act with
    | .tick d => if d = c then some t.pre.now else none
    | _ => none

end Ralix.Kernel
