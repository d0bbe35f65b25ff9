import Ralix.Kernel.PrivateFiles

/-!
# The CPUs, their stacks, and the process table

The machine of `src/arch/aarch64/exception.S` and the kernel together: the registers of each CPU,
memory, and the process table. An exception saves the registers in a frame on the stack that the CPU is on.
`irq_handler` goes to the scheduler, which may answer with the frame of another process, and
`sync_handler` answers in the frame that it was called with. What compiled code does to registers and to
memory is left open, but for the stacks: the code that runs on a stack writes to no other one.

A handler runs on the stack of the process that it interrupted. When `schedule_from_irq` drops the
lock of the process table, that process may be taken by another CPU, and the handler is still on its
stack until `mov sp, x0` (`Stage.leaving`). Should the process run there in the meantime, the handler
may come back to anywhere, and from then on nothing is known of its CPU or of memory
(`Step.derail`).

A process that is started with `start_on_cpu` is on the stack that the CPU booted on, up to
`start_first`, which goes to the process's own.
-/

namespace Ralix.Kernel

open Lib Lib.AArch64 Arch

/-- A stack: the one that a CPU boots on, or the one of a process. -/
inductive StackId where
  | boot (c : Cpu)
  | proc (i : Fin maxProcs)
deriving DecidableEq

/-- Where the stacks are, each apart from the others. -/
structure Stacks where
  region : StackId → Set (BitVec 64)
  disjoint : ∀ {k l a}, k ≠ l → a ∈ region k → a ∉ region l

/-- Where a CPU is. -/
inductive Stage where
  /-- On its way to `start_on_cpu`. -/
  | boot
  /-- In its current process. -/
  | process
  /-- In `irq_handler`. -/
  | irq
  /-- In `sync_handler`, with `ESR_EL1`. -/
  | sync (esr : BitVec 64)
  /-- On its way out of a handler, on the stack of what it interrupted. -/
  | leaving (k : StackId)
deriving DecidableEq

/-- The machine. -/
structure Multicore where
  core : Cpu → Core
  mem : Mem
  stage : Cpu → Stage
  sched : Sched
  /-- The stack that a process is on. This is not in the program. -/
  stack : Fin maxProcs → StackId

/-! ## Memory and frames -/

/-- Memory after code ran on a stack: the other stacks are as they were. -/
def Stacks.Confined (L : Stacks) (k : StackId) (mem mem' : Mem) : Prop :=
  ∀ l, l ≠ k → ∀ a ∈ L.region l, mem' a = mem a

/-- A frame lies on a stack. -/
def Stacks.On (L : Stacks) (k : StackId) (f : BitVec 64) : Prop := ∀ a ∈ frameWords f, a ∈ L.region k

/-- The bytes of memory, the least significant byte of a doubleword first. -/
def bytesOf (mem : Mem) : Dtb.Memory := fun a =>
  UInt8.ofNat ((mem (BitVec.ofNat 64 (a - a % 8))).toNat / 256^(a % 8))

/-- The doublewords of a frame. -/
def frameWord (f : TrapFrame) (i : ℕ) : BitVec 64 :=
  if h : i < 31 then f.x ⟨i, h⟩
  else [f.pad, f.elr, f.spsr, f.spEl0, f.pad2].getD (i - 31) 0

/-- `frame.write`. -/
def storeFrame (mem : Mem) (a : BitVec 64) (f : TrapFrame) : Mem :=
  applyWrites mem ((List.range 36).map fun i => (a + BitVec.ofNat 64 (8 * i), frameWord f i))

/-- `TrapFrame::new`. -/
def newFrame (entry : ℕ) : TrapFrame := ⟨fun _ => 0, 0, BitVec.ofNat 64 entry, 0x5, 0, 0⟩

/-- A synchronous exception is taken. After a `svc`, the context goes on behind it. -/
def takeSync (esr : BitVec 64) (c : Core) : Core :=
  ({ c with pc := if exceptionClass esr = ecSvc then c.pc + 4 else c.pc }).takeIrq

/-- The frames that a branch of `sync_handler` may return. -/
inductive SyncBranch.Returns : SyncBranch → TrapFrame → Prop
  | done (frame : TrapFrame) : Returns (.done frame) frame
  | call (service : Service) (resume : BitVec 64 → TrapFrame) (ans : BitVec 64) :
      Returns (.call service resume) (resume ans)

/-! ## Steps -/

/-- A step of the machine. -/
inductive CoreEvent where
  /-- The code that a CPU is in runs on. -/
  | run (c : Cpu) (core : Core) (mem : Mem)
  /-- A CPU takes a process in `start_on_cpu`. -/
  | start (c : Cpu) (core : Core) (mem : Mem)
  /-- `start_first`. -/
  | enter (c : Cpu)
  /-- `create_with_mode`. -/
  | create (name : String) (entry stackTop : ℕ) (mode : ProcessMode) (parent : Option ℕ)
  /-- An interrupt, up to the call of `irq_handler`. -/
  | irq (c : Cpu)
  /-- `irq_handler`, for an interrupt that is not the timer's. -/
  | spurious (c : Cpu) (core : Core) (mem : Mem)
  /-- `irq_handler`, for the timer. -/
  | tick (c : Cpu) (core : Core) (mem : Mem)
  /-- A synchronous exception, up to the call of `sync_handler`. -/
  | sync (c : Cpu) (esr : BitVec 64)
  /-- `sync_handler`, if it returns. -/
  | answer (c : Cpu) (far : BitVec 64) (branch : SyncBranch) (core : Core) (mem : Mem)
  /-- The rest of the vector, up to `eret`. -/
  | resume (c : Cpu)
  /-- A handler whose stack is in use by another CPU goes astray. -/
  | derail (c : Cpu) (core : Core) (mem : Mem) (stage : Stage)

namespace Multicore

/-- The slot of the process that is current on a CPU. -/
def slotOf (m : Multicore) (c : Cpu) : Option (Fin maxProcs) :=
  if h : m.sched.current c < maxProcs then some ⟨m.sched.current c, h⟩ else none

/-- The stack of the context that a CPU is in or has interrupted. -/
def onStack (m : Multicore) (c : Cpu) : StackId := (m.slotOf c).elim (.boot c) m.stack

/-- The machine with the registers, the stage, and the memory after code of a CPU. -/
def set (m : Multicore) (c : Cpu) (core : Core) (mem : Mem) (stage : Stage) : Multicore :=
  { m with
    core := Function.update m.core c core
    mem := mem
    stage := Function.update m.stage c stage }

/-- The machine before the first process is created. -/
def boot (core : Cpu → Core) (mem : Mem) : Multicore where
  core := core
  mem := mem
  stage _ := .boot
  sched := Kernel.init
  stack := .proc

/-- Where a CPU comes back to: its current process, or its way to `start_on_cpu`. -/
def back (m : Multicore) (c : Cpu) : Stage := (m.slotOf c).elim .boot fun _ => .process

/-- Another CPU has a context that is on a stack. -/
def Used (m : Multicore) (c : Cpu) (k : StackId) : Prop :=
  ∃ d, d ≠ c ∧ (∀ l, m.stage d ≠ .leaving l) ∧ m.onStack d = k

/-- One step. -/
inductive Step (L : Stacks) (env : Env) : Multicore → CoreEvent → Multicore → Prop
  | run {m : Multicore} {c : Cpu} {core : Core} {mem : Mem} :
      m.stage c = m.back c → L.Confined (m.onStack c) m.mem mem →
        Step L env m (.run c core mem) (m.set c core mem (m.stage c))
  | start {m : Multicore} {c : Cpu} {i : Fin maxProcs} {core : Core} {mem : Mem} {r : ℕ × ℕ}
      {sched : Sched} :
      m.stage c = .boot → m.back c = .boot → startOnCpu c m.sched = .ok (r, sched) →
        sched.current c = i.val →
        core.x 0 = BitVec.ofNat 64 r.1 → core.x 1 = BitVec.ofNat 64 r.2 →
        L.Confined (.boot c) m.mem mem →
        Step L env m (.start c core mem)
          { m.set c core mem .process with sched, stack := Function.update m.stack i (.boot c) }
  | enter {m : Multicore} {c : Cpu} {i : Fin maxProcs} :
      m.stage c = .process → m.slotOf c = some i →
        Step L env m (.enter c)
          { m.set c (startFirst (m.core c)) m.mem .process with
            stack := Function.update m.stack i (.proc i) }
  | create {m : Multicore} {name : String} {entry stackTop : ℕ} {mode : ProcessMode}
      {parent : Option ℕ} {i : Fin maxProcs} {p : Process} {pid : ℕ} {sched : Sched} :
      createWithMode env name entry stackTop mode parent m.sched = (some pid, sched) →
        freeSlot m.sched.table = some i → sched.table.slots i = some p →
        L.On (.proc i) (BitVec.ofNat 64 p.contextSp) →
        Step L env m (.create name entry stackTop mode parent)
          { m with
            sched
            mem := storeFrame m.mem (BitVec.ofNat 64 p.contextSp) (newFrame entry) }
  | irq {m : Multicore} {c : Cpu} :
      m.stage c = m.back c → L.On (m.onStack c) ((m.core c).sp - tfSize) →
        Step L env m (.irq c) (m.set c (runs irqVectorSave ((m.core c).takeIrq, m.mem)).1
          (runs irqVectorSave ((m.core c).takeIrq, m.mem)).2 .irq)
  | spurious {m : Multicore} {c : Cpu} {core : Core} {mem : Mem} :
      m.stage c = .irq → L.Confined (m.onStack c) m.mem mem →
        (∀ a ∈ frameWords (framePtr (m.core c)), mem a = m.mem a) →
        framePtr core = framePtr (m.core c) →
        Step L env m (.spurious c core mem) (m.set c core mem (.leaving (m.onStack c)))
  | tick {m : Multicore} {c : Cpu} {core : Core} {mem : Mem} {r : ℕ} {sched : Sched} :
      m.stage c = .irq → L.Confined (m.onStack c) m.mem mem →
        (∀ a ∈ frameWords (framePtr (m.core c)), mem a = m.mem a) →
        scheduleFromIrq c (framePtr (m.core c)).toNat m.sched = .ok (r, sched) →
        framePtr core = BitVec.ofNat 64 r →
        Step L env m (.tick c core mem) { m.set c core mem (.leaving (m.onStack c)) with sched }
  | sync {m : Multicore} {c : Cpu} {esr : BitVec 64} :
      m.stage c = .process → m.back c = .process → L.On (m.onStack c) ((m.core c).sp - tfSize) →
        Step L env m (.sync c esr) (m.set c (runs syncVectorSave (takeSync esr (m.core c), m.mem)).1
          (runs syncVectorSave (takeSync esr (m.core c), m.mem)).2 (.sync esr))
  | answer {m : Multicore} {c : Cpu} {esr far : BitVec 64} {branch : SyncBranch} {core : Core}
      {mem : Mem} {sched : Sched} :
      m.stage c = .sync esr → L.Confined (m.onStack c) m.mem mem →
        syncHandler c (bytesOf m.mem) esr far (.load m.mem (framePtr (m.core c))) m.sched =
          .ok (branch, sched) →
        branch.Returns (.load mem (framePtr (m.core c))) → framePtr core = framePtr (m.core c) →
        Step L env m (.answer c far branch core mem)
          { m.set c core mem (.leaving (m.onStack c)) with sched }
  | resume {m : Multicore} {c : Cpu} {k : StackId} {is : List Instr} :
      m.stage c = .leaving k → is = irqVectorRestore ∨ is = syncVectorRestore →
        Step L env m (.resume c)
          (m.set c (runs is (m.core c, m.mem)).1 (runs is (m.core c, m.mem)).2 (m.back c))
  | derail {m : Multicore} {c : Cpu} {k : StackId} {core : Core} {mem : Mem} {stage : Stage} :
      m.stage c = .leaving k → m.Used c k →
        Step L env m (.derail c core mem stage) (m.set c core mem stage)

section Set

variable {m : Multicore} {c d : Cpu} {core : Core} {mem : Mem} {stage : Stage}

@[simp] theorem set_core : (m.set c core mem stage).core c = core := Function.update_self ..

@[simp] theorem set_stage : (m.set c core mem stage).stage c = stage := Function.update_self ..

@[simp] theorem set_mem : (m.set c core mem stage).mem = mem := rfl

/-- The registers of another CPU. -/
theorem set_core_of_ne (h : d ≠ c) : (m.set c core mem stage).core d = m.core d :=
  Function.update_of_ne h ..

/-- Where another CPU is. -/
theorem set_stage_of_ne (h : d ≠ c) : (m.set c core mem stage).stage d = m.stage d :=
  Function.update_of_ne h ..

end Set

end Multicore

end Ralix.Kernel
