import Ralix.Kernel.Process

/-!
# The scheduler

`src/kernel/process/scheduler.rs`. Each function here is one critical section under the
`PROCESS_TABLE` lock: `schedule_from_irq` between taking the lock and dropping it, and the part of
`start_on_cpu` before `start_first`. The disabled logging (`LOG_SCHED` is `false`) and the write to
`TTBR0` are left out, since no process's `ttbr0` is ever changed after its creation.
-/

namespace Ralix.Kernel

open Lib

/-- Whether a slot holds a process that a CPU may take: `Ready`, and running on no CPU. -/
def takeable : Option Process → Bool
  | some proc => proc.state == .ready && proc.runningOn == cpuNone
  | none => false

/-- The loop of `dequeue_next_runnable`, with `n` of its iterations left: pops an index, takes it
if its slot's process may be taken, and otherwise pushes it back and goes on. -/
def dequeueLoop : ℕ → ProcessTable → Exec (Option ℕ × ProcessTable)
  | 0, t => .ok (none, t)
  | n + 1, t =>
    match t.runQueue.pop with
    | none => .ok (none, t)
    | some (idx, q) => do
      let t := { t with runQueue := q }
      let slot ← t.get idx
      if takeable slot then
        let t ← t.modify idx fun proc => { proc with inRunQueue := false }
        return (some idx, t)
      else
        dequeueLoop n (t.pushQueue idx)

/-- `dequeue_next_runnable`: one round over the run queue. -/
def dequeueNextRunnable (t : ProcessTable) : Exec (Option ℕ × ProcessTable) :=
  dequeueLoop t.runQueue.len t

/-- The table with `f` applied to the CPU's current process, if `CURRENT` names one. -/
def modifyCurrent (t : ProcessTable) (currentIdx : ℕ) (f : Process → Process) :
    Exec ProcessTable :=
  if currentIdx ≠ invalidIdx then t.modify currentIdx f else .ok t

/-- What `schedule_from_irq` does first to the interrupted process: saves its frame, and takes it
off the CPU if it was `Running`. -/
def preempt (frame : ℕ) (proc : Process) : Process :=
  let proc := { proc with contextSp := frame }
  if proc.state = .running then
    { proc with state := .ready, runningOn := cpuNone, inRunQueue := false }
  else proc

/-- Puts the current process on the run queue if it is `Ready` and not on it yet. -/
def requeueCurrent (t : ProcessTable) (currentIdx : ℕ) : Exec ProcessTable := do
  if currentIdx ≠ invalidIdx then
    match ← t.get currentIdx with
    | some proc =>
      if proc.state = .ready ∧ proc.inRunQueue = false then
        let t ← t.modify currentIdx fun proc => { proc with inRunQueue := true }
        return t.pushQueue currentIdx
      else return t
    | none => return t
  else return t

/-- What the scheduler does to a process that it puts on a CPU. -/
def dispatch (cpu : Cpu) (proc : Process) : Process :=
  { proc with state := .running, runningOn := cpu, inRunQueue := false }

/-- `schedule_from_irq` on a CPU, for the frame that `irq_vector` saved: the frame to resume. -/
def scheduleFromIrq (cpu : Cpu) (frame : ℕ) (s : Sched) : Exec (ℕ × Sched) := do
  let currentIdx := s.current cpu
  let table ← modifyCurrent s.table currentIdx (preempt frame)
  -- Select the next runnable process from the global queue.
  let (nextIdx, table) ← dequeueNextRunnable table
  match nextIdx with
  | none =>
    let table ← modifyCurrent table currentIdx fun proc =>
      { proc with state := .running, runningOn := cpu }
    return (frame, { s with table := table })
  | some nextIdx =>
    match ← table.get nextIdx with
    | none => return (frame, { s with table := table })
    | some _ =>
      let table ← requeueCurrent table currentIdx
      let table ← table.modify nextIdx (dispatch cpu)
      match ← table.get nextIdx with
      | none => .error .expect
      | some proc =>
        return (proc.contextSp,
          { s with table := table, current := Function.update s.current cpu nextIdx })

/-- The critical section of `start_on_cpu`: the entry point and stack top that `start_first` gets,
of the first runnable process. -/
def startOnCpu (cpu : Cpu) (s : Sched) : Exec ((ℕ × ℕ) × Sched) := do
  let (nextIdx, table) ← dequeueNextRunnable s.table
  match nextIdx with
  | none => .error .expect
  | some nextIdx =>
    match ← table.get nextIdx with
    | none => .error .explicit
    | some proc =>
      let table ← table.modify nextIdx (dispatch cpu)
      return ((proc.entry, proc.stackTop),
        { s with table := table, current := Function.update s.current cpu nextIdx })

end Ralix.Kernel
