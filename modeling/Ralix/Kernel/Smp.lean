import Ralix.Kernel.RoundRobin
import Ralix.Kernel.Vfs

/-!
# Bringing up the CPUs

What `kernel_main` does from `paging::init` on, and what the other cores do once it lets them: the wait
loop of `boot.S` on `__secondary_table`, and `secondary_rust_entry`. Each CPU has a list of what it has
left to do, and a step is the first of one CPU's list, or a timer interrupt on a CPU that has unmasked
them, in any order. What only prints is left out, as is the code of `boot.S` around the wait loop, and a
step that takes a lock is one critical section.

A core that finds no entry in the table executes `wfe`, and sleeps unless its event register is set.
`start_secondary_cores` fills the table and then sends an event, so no core sleeps on. An interrupt
before `start_on_cpu` already puts a process on the CPU, and what is left of the list is never done.
-/

namespace Ralix.Kernel

open Lib ProcessTable
open Dtb (ascii)

/-- What a CPU does on the way to its first process. -/
inductive BootStep where
  /-- `paging::init` -/
  | pagingInit
  /-- `process::init` -/
  | processInit
  /-- `set_init_fd(FD_STDIN, ..)` -/
  | setStdin
  /-- `set_init_fd(FD_STDOUT, ..)` -/
  | setStdout
  /-- `set_init_fd(FD_STDERR, ..)` -/
  | setStderr
  /-- `create_user("shell", ..)` -/
  | createShell
  /-- `create("idle", ..)` -/
  | createIdle
  /-- The store to a core's entry of `__secondary_table`. -/
  | release (core : Cpu)
  /-- `sev` -/
  | sendEvent
  /-- The wait loop of `boot.S`. -/
  | await
  /-- `set_ttbr1(kernel_root_pa())` -/
  | setTtbr1
  /-- `set_ttbr0(user_root_pa())` -/
  | setTtbr0
  /-- `init_per_cpu`, which ends with `enable_irq`. -/
  | initPerCpu
  /-- `start_on_cpu` -/
  | startOnCpu
deriving DecidableEq

/-- `kernel_main`, with `start_secondary_cores`. -/
def kernelMain : List BootStep :=
  [.pagingInit, .processInit, .setStdin, .setStdout, .setStderr, .createShell, .createIdle,
    .createIdle, .createIdle, .createIdle, .release 1, .release 2, .release 3, .sendEvent,
    .initPerCpu, .startOnCpu]

/-- The wait loop, and `secondary_rust_entry`. -/
def secondaryMain : List BootStep := [.await, .setTtbr1, .setTtbr0, .initPerCpu, .startOnCpu]

/-- What a CPU is to do. -/
def mainOf (c : Cpu) : List BootStep := if c = 0 then kernelMain else secondaryMain

/-- The addresses that bringing up the CPUs reads: those of process creation, the root of the kernel's
page tables, that of the tables of `boot.S`, and the entry points of the processes. -/
structure Image extends Env where
  kernelRootPa : ℕ
  bootRootPa : ℕ
  userStart : ℕ
  idleLoop : ℕ

/-- Where a core is in its wait loop. -/
inductive Wait where
  /-- Before the load of its entry. -/
  | load
  /-- Its entry was zero, and `wfe` comes next. -/
  | wfe
  /-- In `wfe`. -/
  | asleep
deriving DecidableEq

/-- A CPU: what it has left to do, and its registers as far as they matter here. -/
structure BootCpu where
  todo : List BootStep
  wait : Wait
  /-- The event register. -/
  event : Bool
  /-- Interrupts are unmasked. -/
  irq : Bool
  ttbr0 : ℕ
  ttbr1 : ℕ
  panicked : Bool

/-- The statics that the CPUs share, and the CPUs. -/
structure Smp where
  sched : Sched
  /-- `__secondary_table` has an entry for the core. -/
  released : Cpu → Bool
  kernelRoot : ℕ
  userRoot : ℕ
  cpu : Cpu → BootCpu

/-- A step of a CPU. -/
inductive SmpEvent where
  /-- The CPU goes on with its list. -/
  | go (c : Cpu)
  /-- It takes a timer interrupt. -/
  | tick (c : Cpu) (frame : ℕ)
  /-- Its event register is set, by an event that nothing here sends. -/
  | wake (c : Cpu)

/-- `current_pid` -/
def currentPid (s : Sched) (c : Cpu) : Exec (Option ℕ) := do
  if s.current c = invalidIdx then return none
  else return (← s.table.get (s.current c)).map Process.id

/-- The tables of the process that is current on a CPU. -/
def currentTtbr0 (s : Sched) (c : Cpu) : Option ℕ :=
  if h : s.current c < maxProcs then (s.table.slots ⟨s.current c, h⟩).map Process.ttbr0 else none

namespace Smp

/-- The CPUs as `boot.S` starts them: `BSS` is zero, and each walks the tables of `boot.S`. -/
def boot (image : Image) : Smp where
  sched := Kernel.init
  released _ := false
  kernelRoot := 0
  userRoot := 0
  cpu c := ⟨mainOf c, .load, false, false, image.bootRootPa, image.bootRootPa, false⟩

/-- A CPU is in another state. -/
def setCpu (m : Smp) (c : Cpu) (b : BootCpu) : Smp := { m with cpu := Function.update m.cpu c b }

/-- A CPU has done the first of its list. -/
def advance (m : Smp) (c : Cpu) : Smp := m.setCpu c { m.cpu c with todo := (m.cpu c).todo.tail }

/-- A CPU whose state was changed has done the first of its list. -/
theorem advance_setCpu (m : Smp) (c : Cpu) (b : BootCpu) :
    ((m.setCpu c b).advance c).cpu = Function.update m.cpu c { b with todo := b.todo.tail } := by
  simp [advance, setCpu]

/-- A CPU has a process from here on, with the tables of that process. -/
def run (m : Smp) (c : Cpu) (s : Sched) : Smp :=
  { m with sched := s }.setCpu c
    { m.cpu c with todo := [], ttbr0 := (currentTtbr0 s c).getD (m.cpu c).ttbr0 }

/-- A CPU stops in a panic. -/
def panic (m : Smp) (c : Cpu) : Smp := m.setCpu c { m.cpu c with panicked := true }

/-- A CPU goes on with a result, or stops in a panic. -/
def orPanic {α : Type} (m : Smp) (c : Cpu) (x : Exec α) (k : α → Smp) : Smp :=
  match x with
  | .ok a => k a
  | .error _ => m.panic c

/-- `create` and `create_user`, with no stack given: the state after them. -/
def create (image : Image) (m : Smp) (c : Cpu) (name : String) (entry : ℕ) (mode : ProcessMode) :
    Exec Sched := do
  let parent ← currentPid m.sched c
  let env : Env := { image.toEnv with userRootPa := m.userRoot }
  return (createWithMode env name entry 0 mode parent m.sched).2

/-- A turn in the wait loop. A core that sleeps goes on once its event register is set. -/
def waitTurn (m : Smp) (c : Cpu) : Option Smp :=
  let b := m.cpu c
  match b.wait with
  | .load =>
    if m.released c then some (m.advance c) else some (m.setCpu c { b with wait := .wfe })
  | .wfe =>
    if b.event then some (m.setCpu c { b with event := false, wait := .load })
    else some (m.setCpu c { b with wait := .asleep })
  | .asleep => if b.event then some (m.setCpu c { b with event := false, wait := .load }) else none

/-- The first of a CPU's list. -/
def exec (image : Image) (c : Cpu) (m : Smp) : BootStep → Option Smp
  | .pagingInit =>
    let m := { m with kernelRoot := image.kernelRootPa, userRoot := image.userRootPa }
    -- `enable_mmu`
    some ((m.setCpu c { m.cpu c with ttbr0 := m.userRoot, ttbr1 := m.kernelRoot }).advance c)
  | .processInit => some ({ m with sched := Kernel.init }.advance c)
  | .setStdin =>
    let stdin := openBytes (ascii "/dev/kbd0") ⟨true, false, false⟩
    some ({ m with sched := setInitFd 0 stdin m.sched }.advance c)
  | .setStdout =>
    let fb := openBytes (ascii "/dev/fb0") ⟨false, true, false⟩
    some ({ m with sched := setInitFd 1 fb m.sched }.advance c)
  | .setStderr =>
    let fb := openBytes (ascii "/dev/fb0") ⟨false, true, false⟩
    some ({ m with sched := setInitFd 2 fb m.sched }.advance c)
  | .createShell =>
    some (m.orPanic c (m.create image c "shell" image.userStart .user) fun s =>
      { m with sched := s }.advance c)
  | .createIdle =>
    some (m.orPanic c (m.create image c "idle" image.idleLoop .kernel) fun s =>
      { m with sched := s }.advance c)
  | .release core => some ({ m with released := Function.update m.released core true }.advance c)
  | .sendEvent =>
    some ({ m with cpu := fun d => { m.cpu d with event := true } }.advance c)
  | .await => m.waitTurn c
  | .setTtbr1 => some ((m.setCpu c { m.cpu c with ttbr1 := m.kernelRoot }).advance c)
  | .setTtbr0 => some ((m.setCpu c { m.cpu c with ttbr0 := m.userRoot }).advance c)
  | .initPerCpu => some ((m.setCpu c { m.cpu c with irq := true }).advance c)
  | .startOnCpu => some (m.orPanic c (Kernel.startOnCpu c m.sched) fun (_, s) => m.run c s)

/-- A timer interrupt. The CPU goes back to its list only if no process was put on it. -/
def takeTick (c : Cpu) (frame : ℕ) (m : Smp) : Smp :=
  m.orPanic c (scheduleFromIrq c frame m.sched) fun (_, s) =>
    -- a process that stays on the CPU keeps the tables that are there
    if s.current c = m.sched.current c then { m with sched := s } else m.run c s

/-- One step. It is `none` where the CPU cannot take it. -/
def step (image : Image) (m : Smp) : SmpEvent → Option Smp
  | .go c =>
    if (m.cpu c).panicked then none else (m.cpu c).todo.head?.bind (m.exec image c ·)
  | .tick c frame =>
    if (m.cpu c).irq ∧ ¬(m.cpu c).panicked then some (m.takeTick c frame) else none
  | .wake c => some (m.setCpu c { m.cpu c with event := true })

/-- A step that an event takes. -/
def Step (image : Image) (m : Smp) (e : SmpEvent) (m' : Smp) : Prop := m.step image e = some m'

end Smp

end Ralix.Kernel
