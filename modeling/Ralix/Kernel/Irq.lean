import Mathlib.Logic.Relation
import Ralix.Kernel.Runs

/-!
# The timer interrupt, step by step

The scheduler's critical section is one step of a longer path. `irq_vector` of `exception.S` pushes
a trap frame on the stack of the interrupted code and calls `irq_handler`, which calls
`schedule_from_irq`. That takes the `PROCESS_TABLE` lock, picks the frame to resume, and drops the
lock. The CPU then finishes `irq_handler` on the stack it was interrupted on, and only
`mov sp, x0` leaves that stack. `Machine` has these steps for every CPU, with the stack pointers
and the lock, and `Machine.step` is one step of one CPU. A CPU that has not run a process yet is on
its boot stack, from which `start_on_cpu` or an interrupt takes it to its first process.

Between the unlock and `mov sp, x0`, the interrupted process is on the run queue while a CPU still
stands on its stack. `HeadLeft` says that this is not so for the process at the head of the queue.
-/

namespace Ralix.Kernel

open Lib ProcessTable

/-- Where a CPU is on its way through an interrupt, or through `start_on_cpu`. -/
inductive Phase where
  /-- In the code of its process, or in boot code if it runs none. -/
  | running
  /-- In `irq_vector` or `irq_handler`, before the lock, with its frame saved. -/
  | vector (frame : ℕ)
  /-- In `schedule_from_irq`, holding the lock. -/
  | locked (frame : ℕ)
  /-- The same, with the frame to resume. -/
  | scheduled (next : ℕ)
  /-- Past the lock, in the rest of `schedule_from_irq` and `irq_handler`. -/
  | finishing (next : ℕ)
  /-- Back in `irq_vector`, before `mov sp, x0`. -/
  | returned (next : ℕ)
  /-- In `start_on_cpu`, holding the lock. -/
  | startLocked
  /-- The same, with the stack to start on. -/
  | startScheduled (stackTop : ℕ)
  /-- Past the lock, before `mov sp, x1` of `start_first`. -/
  | startFinishing (stackTop : ℕ)

/-- The CPUs, the lock on `PROCESS_TABLE`, and the scheduler's statics. -/
structure Machine where
  sched : Sched
  lock : Option Cpu
  phase : Cpu → Phase
  sp : Cpu → ℕ

/-- A step of a CPU, or the creation of a process. -/
inductive Action where
  /-- `create` or `create_user`, which `kernel_main` calls with `stack_top` zero. -/
  | create (name : String) (entry : ℕ) (mode : ProcessMode) (parent : Option ℕ)
  /-- The running code moves the stack pointer. -/
  | move (c : Cpu) (sp : ℕ)
  /-- An interrupt: `irq_vector` saves the frame. -/
  | irq (c : Cpu)
  /-- `PROCESS_TABLE.lock()` in `schedule_from_irq`. -/
  | acquire (c : Cpu)
  /-- `PROCESS_TABLE.lock()` in `start_on_cpu`. -/
  | start (c : Cpu)
  /-- The critical section. -/
  | schedule (c : Cpu)
  /-- The guard is dropped. -/
  | release (c : Cpu)
  /-- The rest of `irq_handler`: `end_irq` and the epilogues. -/
  | finish (c : Cpu)
  /-- `mov sp, x0` and `eret`, or `mov sp, x1` and `br x0`. -/
  | switch (c : Cpu)

/-- The stack pointer is on the stack of slot `i`. A stack grows down from its top. -/
def OnStack (env : Env) (i : Fin maxProcs) (sp : ℕ) : Prop :=
  env.processStacks + i.val * stackSize < sp ∧ sp ≤ env.ownStackTop i

instance (env : Env) (i : Fin maxProcs) (sp : ℕ) : Decidable (OnStack env i sp) :=
  inferInstanceAs (Decidable (_ ∧ _))

/-- Two stack pointers are on the stacks of the same slots. -/
def SameStack (env : Env) (a b : ℕ) : Prop := ∀ i, OnStack env i a ↔ OnStack env i b

instance (env : Env) (a b : ℕ) : Decidable (SameStack env a b) :=
  inferInstanceAs (Decidable (∀ _, _))

/-- The stack pointers that the CPUs boot with. -/
structure Boot (env : Env) where
  sp : Cpu → ℕ
  /-- The boot stacks are not process stacks. -/
  off : ∀ c i, ¬ OnStack env i (sp c)

/-- The machine at the end of boot, after `process::init`. -/
def Machine.boot {env : Env} (boot : Boot env) : Machine where
  sched := init
  lock := none
  phase _ := .running
  sp := boot.sp

namespace Machine

/-- The machine with a CPU in another phase. -/
def setPhase (m : Machine) (c : Cpu) (p : Phase) : Machine :=
  { m with phase := Function.update m.phase c p }

/-- The machine with a CPU's stack pointer moved. -/
def setSp (m : Machine) (c : Cpu) (sp : ℕ) : Machine :=
  { m with sp := Function.update m.sp c sp }

/-- One step. It is `none` where the CPU cannot take the step, and where the step panics. The code
that runs on a stack stays on it, and leaves room on it for a trap frame. -/
def step (env : Env) : Action → Machine → Option Machine
  | .create name entry mode parent, m =>
    if m.lock = none then
      some { m with sched := (createWithMode env name entry 0 mode parent m.sched).2 }
    else none
  | .move c sp, m => if SameStack env sp (m.sp c) then some (m.setSp c sp) else none
  | .irq c, m =>
    match m.phase c with
    | .running =>
      let frame := m.sp c - trapFrameSize
      if trapFrameSize ≤ m.sp c ∧ SameStack env frame (m.sp c) then
        some ((m.setSp c frame).setPhase c (.vector frame))
      else none
    | _ => none
  | .acquire c, m =>
    match m.phase c, m.lock with
    | .vector frame, none => some ({ m with lock := some c }.setPhase c (.locked frame))
    | _, _ => none
  | .start c, m =>
    match m.phase c, m.lock with
    | .running, none =>
      if m.sched.current c = invalidIdx then
        some ({ m with lock := some c }.setPhase c .startLocked)
      else none
    | _, _ => none
  | .schedule c, m =>
    match m.phase c with
    | .locked frame =>
      match scheduleFromIrq c frame m.sched with
      | .ok (next, sched) => some ({ m with sched := sched }.setPhase c (.scheduled next))
      | .error _ => none
    | .startLocked =>
      match startOnCpu c m.sched with
      | .ok ((_, stackTop), sched) =>
        some ({ m with sched := sched }.setPhase c (.startScheduled stackTop))
      | .error _ => none
    | _ => none
  | .release c, m =>
    match m.phase c with
    | .scheduled next => some ({ m with lock := none }.setPhase c (.finishing next))
    | .startScheduled stackTop => some ({ m with lock := none }.setPhase c (.startFinishing stackTop))
    | _ => none
  | .finish c, m =>
    match m.phase c with
    | .finishing next => some (m.setPhase c (.returned next))
    | _ => none
  | .switch c, m =>
    match m.phase c with
    | .returned next => some ((m.setSp c (next + trapFrameSize)).setPhase c .running)
    | .startFinishing stackTop => some ((m.setSp c stackTop).setPhase c .running)
    | _ => none

/-- The CPU has dropped the lock and not yet left the stack that it was interrupted on. -/
def Leaving (m : Machine) (c : Cpu) : Prop :=
  ∃ next, m.phase c = .finishing next ∨ m.phase c = .returned next

/-- No CPU is leaving the stack of the process at the head of the run queue. -/
def HeadLeft (env : Env) (m : Machine) : Prop :=
  ∀ (i : Fin maxProcs) (c : Cpu), m.sched.table.queue.head? = some i.val → m.Leaving c →
    ¬ OnStack env i (m.sp c)

/-- No two CPUs are on the stack of one process. -/
def Exclusive (env : Env) (m : Machine) : Prop :=
  ∀ (c d : Cpu) (i : Fin maxProcs), c ≠ d → OnStack env i (m.sp c) → ¬ OnStack env i (m.sp d)

/-- Some action takes one machine to the other. -/
def Step (env : Env) (m m' : Machine) : Prop := ∃ a, m.step env a = some m'

/-- The same, with a critical section only where the head of the queue has been left. -/
def StepLeft (env : Env) (m m' : Machine) : Prop :=
  ∃ a, m.step env a = some m' ∧ ∀ c, a = .schedule c → m.HeadLeft env

end Machine

end Ralix.Kernel
