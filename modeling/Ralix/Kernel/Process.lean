import Ralix.Lib.Exec
import Ralix.Lib.Ring

/-!
# The process table

The data of `src/kernel/process.rs`: processes, the global run queue, the table that holds both,
and the per-CPU `CURRENT` indices. A `usize` is a natural number. The sentinels `INVALID_IDX` and
`CPU_NONE` are the source's `usize::MAX`, and an access to a slot goes through `ProcessTable.get`
or `ProcessTable.modify`, which stop on an index that the array does not have. `Sched` gathers the
statics that the scheduler works on: `PROCESS_TABLE`, `CURRENT`, and `INIT_FDS`.

What the functions do with memory outside these statics is left to an `Env`: the address of
`PROCESS_STACKS`, and the root that `paging::user_root_pa` returns.
-/

namespace Ralix.Kernel

open Lib

/-- The device behind a file descriptor. -/
inductive FileHandle where
  | devFb0
  | devKbd0
deriving DecidableEq, Repr

/-- The modes that a file was opened in. -/
structure OpenFlags where
  read : Bool
  write : Bool
  append : Bool
deriving DecidableEq, Repr

/-- An open file: a device and the modes it was opened in. -/
structure FileDesc where
  handle : FileHandle
  flags : OpenFlags
deriving DecidableEq, Repr

inductive ProcessMode where
  | kernel
  | user
deriving DecidableEq, Repr

inductive ProcessState where
  | ready
  | running
  | blocked
  | terminated
deriving DecidableEq, Repr

/-- The number of descriptors of a process. -/
def maxFds : ℕ := 8

/-- The number of slots of the process table. -/
def maxProcs : ℕ := 64

/-- The number of CPUs. -/
def maxCpus : ℕ := 4

/-- The size of one of `PROCESS_STACKS`. -/
def stackSize : ℕ := 512 * 1024

/-- The size of a `TrapFrame`: the registers `x0` to `x30`, `elr`, `spsr`, `sp_el0`, and two words
of padding. -/
def trapFrameSize : ℕ := 31 * 8 + 5 * 8

/-- `CPU_NONE`, the `running_on` of a process that no CPU runs. -/
def cpuNone : ℕ := 2^64 - 1

/-- `INVALID_IDX`, the `CURRENT` of a CPU that runs no process. -/
def invalidIdx : ℕ := 2^64 - 1

instance : NeZero maxCpus := ⟨by decide⟩

/-- A CPU, as `smp::cpu_id` numbers them. -/
abbrev Cpu := Fin maxCpus

/-- The descriptors of a process. -/
abbrev FdTable := Fin maxFds → Option FileDesc

structure Process where
  id : ℕ
  name : String
  entry : ℕ
  state : ProcessState
  stackTop : ℕ
  contextSp : ℕ
  runningOn : ℕ
  inRunQueue : Bool
  mode : ProcessMode
  parent : Option ℕ
  fds : FdTable
  ttbr0 : ℕ

instance : NeZero maxProcs := ⟨by decide⟩

/-- `RunQueue`: a ring of slot indices. -/
abbrev RunQueue := Ring ℕ maxProcs

structure ProcessTable where
  slots : Fin maxProcs → Option Process
  nextPid : ℕ
  runQueue : RunQueue

namespace ProcessTable

/-- `ProcessTable::new`. -/
def new : ProcessTable where
  slots _ := none
  nextPid := 1
  runQueue := Ring.new maxProcs invalidIdx

/-- `alloc_pid`: the next pid, and the table with `next_pid` advanced past it, skipping `0`. -/
def allocPid (t : ProcessTable) : ℕ × ProcessTable :=
  (t.nextPid, { t with nextPid := max ((t.nextPid + 1) % 2^32) 1 })

/-- The slot `table.slots[idx]`. -/
def get (t : ProcessTable) (idx : ℕ) : Exec (Option Process) :=
  if h : idx < maxProcs then .ok (t.slots ⟨idx, h⟩) else .error .bounds

/-- The table with a slot's contents replaced. -/
def setSlot (t : ProcessTable) (i : Fin maxProcs) (p : Option Process) : ProcessTable :=
  { t with slots := Function.update t.slots i p }

/-- `if let Some(proc) = &mut table.slots[idx]`: the table with `f` applied to the process of the
slot, if it has one. -/
def modify (t : ProcessTable) (idx : ℕ) (f : Process → Process) : Exec ProcessTable :=
  if h : idx < maxProcs then .ok (t.setSlot ⟨idx, h⟩ ((t.slots ⟨idx, h⟩).map f))
  else .error .bounds

/-- The table with `idx` pushed on its run queue. -/
def pushQueue (t : ProcessTable) (idx : ℕ) : ProcessTable :=
  { t with runQueue := t.runQueue.push idx }

/-- The queue that the table's ring denotes. -/
def queue (t : ProcessTable) : List ℕ := t.runQueue.toList

section Api

variable {t : ProcessTable} {i j : Fin maxProcs} {p : Option Process}

@[simp] theorem get_val : t.get i.val = .ok (t.slots i) := by
  simp [get, i.isLt]

@[simp] theorem modify_val (f : Process → Process) :
    t.modify i.val f = .ok (t.setSlot i ((t.slots i).map f)) := by
  simp [modify, i.isLt]

@[simp] theorem setSlot_slots_self : (t.setSlot i p).slots i = p := by simp [setSlot]

theorem setSlot_slots_of_ne (h : j ≠ i) : (t.setSlot i p).slots j = t.slots j := by
  simp [setSlot, h]

@[simp] theorem setSlot_runQueue : (t.setSlot i p).runQueue = t.runQueue := rfl
@[simp] theorem setSlot_queue : (t.setSlot i p).queue = t.queue := rfl
@[simp] theorem setSlot_nextPid : (t.setSlot i p).nextPid = t.nextPid := rfl
@[simp] theorem pushQueue_slots {idx : ℕ} : (t.pushQueue idx).slots = t.slots := rfl
@[simp] theorem pushQueue_nextPid {idx : ℕ} : (t.pushQueue idx).nextPid = t.nextPid := rfl
@[simp] theorem queue_new : new.queue = [] := Ring.toList_new _
@[simp] theorem slots_new : new.slots i = none := rfl
@[simp] theorem nextPid_new : new.nextPid = 1 := rfl

/-- Below the capacity, a pushed index goes to the end of the queue. -/
theorem pushQueue_queue {idx : ℕ} (h : t.queue.length < maxProcs) :
    (t.pushQueue idx).queue = t.queue ++ [idx] :=
  Ring.toList_push _ _ (by simpa [queue] using h)

end Api

end ProcessTable

/-- The statics that the scheduler works on: `PROCESS_TABLE`, `CURRENT`, and `INIT_FDS`. -/
structure Sched where
  table : ProcessTable
  current : Cpu → ℕ
  initFds : FdTable

/-- The addresses that process creation reads: where `PROCESS_STACKS` lies, and the root of the
user page tables. -/
structure Env where
  processStacks : ℕ
  userRootPa : ℕ
  /-- A `ProcStack` has `align(16)`. -/
  aligned : processStacks % 16 = 0
  /-- The array lies in memory. -/
  fits : processStacks + maxProcs * stackSize < 2^64

/-- `process::init`. -/
def init : Sched where
  table := ProcessTable.new
  current _ := invalidIdx
  initFds _ := none

/-- `init_context`: where the initial trap frame goes, below the top of the stack and aligned to 16
bytes. -/
def initContext (stackTop : ℕ) : ℕ :=
  (stackTop + 2^64 - trapFrameSize) % 2^64 &&& 0xFFFFFFFFFFFFFFF0

/-- The top of `PROCESS_STACKS[idx]`. -/
def Env.ownStackTop (env : Env) (idx : ℕ) : ℕ := env.processStacks + idx * stackSize + stackSize

/-- The descriptors that a new process inherits: those of the first process with the parent's pid,
or `INIT_FDS`. -/
def inheritedFds (s : Sched) (parent : Option ℕ) : FdTable :=
  match parent with
  | none => s.initFds
  | some pid =>
    match (List.finRange maxProcs).findSome? fun i => (s.table.slots i).filter (·.id = pid) with
    | some p => p.fds
    | none => s.initFds

/-- `create_with_mode`: a new process in the first free slot, `Ready` and at the end of the run
queue. It returns the new pid, or `none` if no slot is free. -/
def createWithMode (env : Env) (name : String) (entry stackTop : ℕ) (mode : ProcessMode)
    (parent : Option ℕ) (s : Sched) : Option ℕ × Sched :=
  match (List.finRange maxProcs).find? fun i => (s.table.slots i).isNone with
  | none => (none, s)
  | some idx =>
    let (pid, table) := s.table.allocPid
    let stackTop := if stackTop = 0 then env.ownStackTop idx else stackTop
    let table := table.setSlot idx (some {
      id := pid
      name := name
      entry := entry
      state := .ready
      stackTop := stackTop
      contextSp := initContext stackTop
      runningOn := cpuNone
      inRunQueue := true
      mode := mode
      parent := parent
      fds := inheritedFds s parent
      ttbr0 := env.userRootPa })
    (some pid, { s with table := table.pushQueue idx })

/-- The first slot whose process has the pid. -/
def slotOfPid (t : ProcessTable) (pid : ℕ) : Option (Fin maxProcs) :=
  (List.finRange maxProcs).find? fun i => (t.slots i).any (·.id = pid)

/-- `set_state`: gives the process with the pid another state, and changes nothing else of it. It
returns whether there is such a process. -/
def setState (pid : ℕ) (state : ProcessState) (s : Sched) : Bool × Sched :=
  match slotOfPid s.table pid with
  | none => (false, s)
  | some i =>
    (true, { s with table :=
      s.table.setSlot i ((s.table.slots i).map fun proc : Process => { proc with state := state }) })

end Ralix.Kernel
