import Mathlib.Data.List.Perm.Subperm
import Ralix.Kernel.Scheduler

/-!
# What the scheduler's critical sections do

The state of a process is spread over its slot (`state`, `running_on`, `in_run_queue`), the run
queue, and the per-CPU `CURRENT` indices. `Inv` says how they agree: a queued index is the slot of
a `Ready` process that runs nowhere, a current index is the slot of the `Running` process that
says so, every process is one or the other, and slots fill up in the order of their pids. Each
operation has lemmas here that say everything it does: `dequeueNextRunnable_none` and
`dequeueNextRunnable_some`, and with the same endings for `scheduleFromIrq`, `startOnCpu`, and
`createWithMode`. These ask little of the state. `scheduleFromIrq_idle`, `scheduleFromIrq_switch`,
`startOnCpu_cons`, and `createWithMode_free` are what they come to for a state with `Inv`. The
proofs about runs use these instead of the definitions.
-/

namespace Ralix.Kernel

open Lib ProcessTable

/-- `INVALID_IDX` is no slot. -/
theorem slot_ne_invalidIdx (i : Fin maxProcs) : i.val ≠ invalidIdx := by
  have hi := i.isLt
  unfold maxProcs at hi
  unfold invalidIdx
  omega

/-- `CPU_NONE` is no CPU. -/
theorem cpu_ne_cpuNone (c : Cpu) : c.val ≠ cpuNone := by
  have hc := c.isLt
  unfold maxCpus at hc
  unfold cpuNone
  omega

/-- Distinct slot indices, one of the slots left out, are fewer than the slots. -/
theorem length_lt_of_nodup {q : List ℕ} (hnd : q.Nodup) (hq : ∀ x ∈ q, x < maxProcs)
    {i : Fin maxProcs} (hi : i.val ∉ q) : q.length < maxProcs := by
  have hsub : (i.val :: q) ⊆ List.range maxProcs := by
    intro x hx
    rcases List.mem_cons.mp hx with rfl | hx
    · exact List.mem_range.mpr i.isLt
    · exact List.mem_range.mpr (hq x hx)
  have hle := ((List.nodup_cons.mpr ⟨hi, hnd⟩).subperm hsub).length_le
  rwa [List.length_cons, List.length_range] at hle

/-- A process that waits on the run queue. -/
structure Process.Waiting (p : Process) : Prop where
  state : p.state = .ready
  runningOn : p.runningOn = cpuNone
  inRunQueue : p.inRunQueue = true

/-- A process that runs on the CPU `c`. -/
structure Process.RunsOn (p : Process) (c : Cpu) : Prop where
  state : p.state = .running
  runningOn : p.runningOn = c.val

/-- How the table, the run queue, and the `CURRENT` indices agree. -/
structure Inv (s : Sched) : Prop where
  /-- No index is on the queue twice. -/
  nodup : s.table.queue.Nodup
  /-- A queued index is the slot of a waiting process. -/
  queued : ∀ x ∈ s.table.queue, ∃ (i : Fin maxProcs) (p : Process),
    x = i.val ∧ s.table.slots i = some p ∧ p.Waiting
  /-- A current index is the slot of the process that runs on the CPU. -/
  current : ∀ c, s.current c = invalidIdx ∨ ∃ (i : Fin maxProcs) (p : Process),
    s.current c = i.val ∧ s.table.slots i = some p ∧ p.RunsOn c
  /-- Every process is current on a CPU or queued. -/
  owned : ∀ (i : Fin maxProcs) (p : Process), s.table.slots i = some p →
    (∃ c, s.current c = i.val) ∨ i.val ∈ s.table.queue
  /-- The slots in use are the first `next_pid - 1`. -/
  used : ∀ i, (s.table.slots i).isSome ↔ i.val + 1 < s.table.nextPid
  /-- The pid of a slot's process is one more than its index. -/
  pid : ∀ (i : Fin maxProcs) (p : Process), s.table.slots i = some p → p.id = i.val + 1
  /-- `next_pid` starts at one and never passes the table. -/
  nextPid : 1 ≤ s.table.nextPid ∧ s.table.nextPid ≤ maxProcs + 1

namespace Inv

variable {s : Sched}

/-- The state after `process::init`. -/
theorem init : Inv init where
  nodup := by simp [Kernel.init]
  queued := by simp [Kernel.init]
  current _ := .inl rfl
  owned := by simp [Kernel.init]
  used := by simp [Kernel.init]
  pid := by simp [Kernel.init]
  nextPid := by simp [Kernel.init]

/-- A queued process is not current on any CPU. -/
theorem not_current_of_queued (h : Inv s) {x : ℕ} (hx : x ∈ s.table.queue) (c : Cpu) :
    s.current c ≠ x := by
  intro hc
  obtain ⟨i, p, rfl, hp, hw⟩ := h.queued x hx
  rcases h.current c with hinv | ⟨j, q, hj, hq, hr⟩
  · exact slot_ne_invalidIdx i (hc.symm.trans hinv)
  · have hij : j = i := Fin.ext (hj.symm.trans hc)
    subst hij
    rw [hp] at hq
    cases hq
    exact absurd (hw.state.symm.trans hr.state) (by decide)

/-- Two CPUs with the same current process are the same. -/
theorem current_inj (h : Inv s) {c d : Cpu} (hcd : s.current c = s.current d)
    (hc : s.current c ≠ invalidIdx) : c = d := by
  obtain ⟨i, p, hi, hp, hpc⟩ := (h.current c).resolve_left hc
  obtain ⟨j, q, hj, hq, hqd⟩ := (h.current d).resolve_left (hcd ▸ hc)
  have hij : i = j := Fin.ext (by rw [← hi, ← hj, hcd])
  subst hij
  rw [hp] at hq
  cases hq
  exact Fin.ext (hpc.runningOn.symm.trans hqd.runningOn)

/-- The queue is shorter than the table when some slot's index is not on it. -/
theorem length_lt (h : Inv s) {i : Fin maxProcs} (hi : i.val ∉ s.table.queue) :
    s.table.queue.length < maxProcs := by
  refine length_lt_of_nodup h.nodup (fun x hx => ?_) hi
  obtain ⟨j, -, rfl, -⟩ := h.queued x hx
  exact j.isLt

/-- The process at the head of the queue waits. -/
theorem waiting_of_head (h : Inv s) {i : Fin maxProcs} {p : Process} {rest : List ℕ}
    (hq : s.table.queue = i.val :: rest) (hp : s.table.slots i = some p) : p.Waiting := by
  obtain ⟨j, q, hj, hq', hw⟩ := h.queued i.val (by rw [hq]; exact List.mem_cons_self)
  rw [← Fin.ext hj, hp] at hq'
  cases hq'
  exact hw

end Inv

/-- The process of a waiting slot may be taken. -/
theorem Process.Waiting.takeable {p : Process} (h : p.Waiting) : takeable (some p) = true := by
  simp [Kernel.takeable, h.state, h.runningOn]

/-! ## Dequeueing -/

/-- A queued index that `dequeue_next_runnable` passes over. -/
def Passed (t : ProcessTable) (x : ℕ) : Prop :=
  ∃ i : Fin maxProcs, x = i.val ∧ takeable (t.slots i) = false

/-- The indices that are passed over go to the end of the queue, one after the other. -/
theorem dequeueLoop_pass {todo done : List ℕ} {t : ProcessTable} (h : t.queue = todo ++ done)
    (hpass : ∀ x ∈ todo, Passed t x) (n : ℕ) : ∃ q : RunQueue, q.toList = done ++ todo ∧
      dequeueLoop (todo.length + n) t = dequeueLoop n { t with runQueue := q } := by
  induction todo generalizing done t with
  | nil => exact ⟨t.runQueue, by simpa [queue] using h, by simp⟩
  | cons x todo ih =>
    obtain ⟨⟨i, rfl, htake⟩, hrest⟩ := List.forall_mem_cons.mp hpass
    obtain ⟨q₁, hpop, hq₁⟩ := Ring.exists_pop_of_toList h
    let t₁ : ProcessTable := { t with runQueue := q₁ }
    have hlen : t₁.queue.length < maxProcs := by
      have hle : t.queue.length ≤ maxProcs := Ring.length_toList_le _
      rw [h, List.cons_append, List.length_cons] at hle
      rw [show t₁.queue = todo ++ done from hq₁]
      omega
    have hqueue : (t₁.pushQueue i.val).queue = todo ++ (done ++ [i.val]) := by
      rw [pushQueue_queue hlen, ← List.append_assoc]
      exact congrArg (· ++ [i.val]) hq₁
    obtain ⟨q, hq, hloop⟩ := ih hqueue hrest
    refine ⟨q, by simpa using hq, ?_⟩
    rw [List.length_cons, Nat.add_right_comm]
    have hget : t₁.get i.val = .ok (t.slots i) := get_val
    simp only [dequeueLoop, hpop]
    rw [show ({ t with runQueue := q₁ } : ProcessTable) = t₁ from rfl, hget]
    simp only [Exec.ok_bind, htake, Bool.false_eq_true, if_false]
    exact hloop

/-- A queue with nothing to take keeps its order. -/
theorem dequeueNextRunnable_none {t : ProcessTable} (h : ∀ x ∈ t.queue, Passed t x) :
    ∃ q : RunQueue, q.toList = t.queue ∧
      dequeueNextRunnable t = .ok (none, { t with runQueue := q }) := by
  obtain ⟨q, hq, hloop⟩ := dequeueLoop_pass (t.queue.append_nil).symm h 0
  refine ⟨q, by simpa using hq, ?_⟩
  rw [dequeueNextRunnable, ← Ring.length_toList]
  exact hloop

/-- The first process that may be taken leaves the queue, and the indices before it go behind those
after it. -/
theorem dequeueNextRunnable_some {t : ProcessTable} {i : Fin maxProcs} {pre post : List ℕ}
    (h : t.queue = pre ++ i.val :: post) (hpre : ∀ x ∈ pre, Passed t x)
    (ht : takeable (t.slots i) = true) :
    ∃ q : RunQueue, q.toList = post ++ pre ∧ dequeueNextRunnable t = .ok (some i.val,
      { t with runQueue := q }.setSlot i
        ((t.slots i).map fun proc : Process => { proc with inRunQueue := false })) := by
  obtain ⟨q₁, hq₁, hloop⟩ := dequeueLoop_pass h hpre (post.length + 1)
  obtain ⟨q, hpop, hq⟩ := Ring.exists_pop_of_toList hq₁
  refine ⟨q, hq, ?_⟩
  have hlen : t.runQueue.len = pre.length + (post.length + 1) := by
    rw [← Ring.length_toList, show t.runQueue.toList = pre ++ i.val :: post from h]
    simp
  have hget : ({ t with runQueue := q } : ProcessTable).get i.val = .ok (t.slots i) := get_val
  rw [dequeueNextRunnable, hlen, hloop]
  simp only [dequeueLoop, hpop, hget, Exec.ok_bind, ht, if_true, modify_val, Exec.pure_eq]

/-! ## `schedule_from_irq` -/

/-- What `schedule_from_irq` leaves of a process that it takes off a CPU. -/
def suspend (frame : ℕ) (proc : Process) : Process :=
  { proc with contextSp := frame, state := .ready, runningOn := cpuNone, inRunQueue := true }

/-- What `schedule_from_irq` leaves of a process that it puts back on its CPU. -/
def resume (cpu : Cpu) (frame : ℕ) (proc : Process) : Process :=
  { proc with contextSp := frame, state := .running, runningOn := cpu, inRunQueue := false }

/-- The index that leaves a CPU when another process comes onto it. -/
def leaving (s : Sched) (cpu : Cpu) : List ℕ :=
  if s.current cpu = invalidIdx then [] else [s.current cpu]

/-- Whether a process goes back on the run queue when it leaves a CPU for another. -/
def Process.Requeues (proc : Process) : Prop := proc.state = .running ∨ proc.state = .ready

instance (proc : Process) : Decidable proc.Requeues := inferInstanceAs (Decidable (_ ∨ _))

/-- What `schedule_from_irq` leaves of a process that leaves a CPU for another: one that was
`Running` waits, one that was `Ready` is queued as it is, and any other is only saved. -/
def leave (frame : ℕ) (proc : Process) : Process :=
  if proc.state = .running then suspend frame proc
  else { proc with contextSp := frame, inRunQueue := decide proc.Requeues }

namespace Sched

/-- The process that is current on a CPU. -/
def currentProcess (s : Sched) (cpu : Cpu) : Option Process :=
  if h : s.current cpu < maxProcs then s.table.slots ⟨s.current cpu, h⟩ else none

/-- The index that goes back on the run queue when another process comes onto the CPU. -/
def returning (s : Sched) (cpu : Cpu) : List ℕ :=
  if (s.currentProcess cpu).any fun proc => decide proc.Requeues then [s.current cpu] else []

/-- A CPU's current process, as the scheduler needs it: not queued, and not marked as queued once
it is no longer `Running`. -/
structure Holds (s : Sched) (cpu : Cpu) (k : Fin maxProcs) (r : Process) : Prop where
  current : s.current cpu = k.val
  slot : s.table.slots k = some r
  unqueued : k.val ∉ s.table.queue
  unmarked : r.state ≠ .running → r.inRunQueue = false

/-- A CPU runs no process, or holds one. -/
def Settled (s : Sched) (cpu : Cpu) : Prop :=
  s.current cpu = invalidIdx ∨ ∃ k r, s.Holds cpu k r

variable {s : Sched} {cpu : Cpu}

/-- No process is current at `INVALID_IDX`. -/
theorem currentProcess_invalid (h : s.current cpu = invalidIdx) : s.currentProcess cpu = none := by
  rw [currentProcess, dif_neg (by rw [h]; decide)]

/-- A CPU's current process is in the current slot. -/
theorem currentProcess_val {k : Fin maxProcs} (h : s.current cpu = k.val) :
    s.currentProcess cpu = s.table.slots k := by
  rw [currentProcess, dif_pos (h ▸ k.isLt)]
  exact congrArg _ (Fin.ext h)

/-- Nothing but the current index goes back on the queue. -/
theorem mem_returning {x : ℕ} (h : x ∈ s.returning cpu) : x = s.current cpu := by
  unfold returning at h
  split at h
  · exact List.mem_singleton.mp h
  · cases h

/-- Nothing goes back on the queue from a CPU that runs no process. -/
theorem returning_invalid (h : s.current cpu = invalidIdx) : s.returning cpu = [] := by
  simp [returning, currentProcess_invalid h]

/-- A process that a CPU holds goes back on the queue if it is `Running` or `Ready`. -/
theorem Holds.returning {k : Fin maxProcs} {r : Process} (h : s.Holds cpu k r) :
    s.returning cpu = if r.Requeues then [k.val] else [] := by
  simp [Sched.returning, currentProcess_val h.current, h.slot, h.current]

end Sched

/-- Modifying the current process when there is none changes nothing. -/
theorem modifyCurrent_invalid (t : ProcessTable) (f : Process → Process) :
    modifyCurrent t invalidIdx f = .ok t := by
  simp [modifyCurrent]

/-- Modifying the current process modifies its slot. -/
theorem modifyCurrent_val (t : ProcessTable) (i : Fin maxProcs) (f : Process → Process) :
    modifyCurrent t i.val f = .ok (t.setSlot i ((t.slots i).map f)) := by
  simp [modifyCurrent, slot_ne_invalidIdx]

/-- Without a current process, nothing goes back on the queue. -/
theorem requeueCurrent_invalid (t : ProcessTable) : requeueCurrent t invalidIdx = .ok t := by
  simp [requeueCurrent]

/-- A current process that is `Ready` and not queued goes to the end of the queue. -/
theorem requeueCurrent_ready {t : ProcessTable} {i : Fin maxProcs} {p : Process}
    (hp : t.slots i = some p) (hs : p.state = .ready) (hq : p.inRunQueue = false) :
    requeueCurrent t i.val =
      .ok ((t.setSlot i (some { p with inRunQueue := true })).pushQueue i.val) := by
  simp [requeueCurrent, slot_ne_invalidIdx, hp, hs, hq]

/-- A current process that is not `Ready` does not. -/
theorem requeueCurrent_other {t : ProcessTable} {i : Fin maxProcs} {p : Process}
    (hp : t.slots i = some p) (hs : p.state ≠ .ready) : requeueCurrent t i.val = .ok t := by
  simp [requeueCurrent, slot_ne_invalidIdx, hp, hs]

/-- The interrupted process is not marked as queued. -/
theorem preempt_inRunQueue {r : Process} (h : r.state ≠ .running → r.inRunQueue = false)
    (frame : ℕ) : (preempt frame r).inRunQueue = false := by
  by_cases hr : r.state = .running <;> simp [preempt, hr, h]

/-- The interrupted process is `Ready` if it was, or if it was `Running`. -/
theorem preempt_ready {r : Process} {frame : ℕ} :
    (preempt frame r).state = .ready ↔ r.Requeues := by
  by_cases hr : r.state = .running <;> simp [preempt, Process.Requeues, hr]

/-- What becomes of the interrupted process when another comes onto the CPU, and where the queue
stands then. -/
theorem requeueCurrent_preempt {t : ProcessTable} {k : Fin maxProcs} {r : Process} {frame : ℕ}
    (h : r.state ≠ .running → r.inRunQueue = false) (hk : t.slots k = some (preempt frame r))
    (hlen : t.queue.length < maxProcs) :
    ∃ t', requeueCurrent t k.val = .ok t' ∧ t'.nextPid = t.nextPid ∧
      t'.queue = t.queue ++ (if r.Requeues then [k.val] else []) ∧
      t'.slots k = some (leave frame r) ∧ ∀ j, j ≠ k → t'.slots j = t.slots j := by
  have hmark := preempt_inRunQueue h frame
  by_cases hr : r.Requeues
  · refine ⟨_, requeueCurrent_ready hk (preempt_ready.mpr hr) hmark, rfl, ?_, ?_, fun j hj => ?_⟩
    · rw [if_pos hr]
      exact pushQueue_queue hlen
    · rw [pushQueue_slots, setSlot_slots_self]
      by_cases hrun : r.state = .running <;> simp [preempt, leave, suspend, hrun, hr]
    · rw [pushQueue_slots, setSlot_slots_of_ne hj]
  · refine ⟨t, requeueCurrent_other hk (fun e => hr (preempt_ready.mp e)), rfl, ?_, ?_,
      fun _ _ => rfl⟩
    · rw [if_neg hr, List.append_nil]
    · have hrun : r.state ≠ .running := fun e => hr (.inl e)
      rw [hk]
      simp [preempt, leave, hrun, hr, h hrun]

/-- With nothing to take, `schedule_from_irq` returns to the interrupted process, and puts it back
into `Running` whatever its state was. -/
theorem scheduleFromIrq_none {s : Sched} {cpu : Cpu} (h : s.Settled cpu) (frame : ℕ)
    (hq : ∀ x ∈ s.table.queue, Passed s.table x) :
    ∃ t, scheduleFromIrq cpu frame s = .ok (frame, { s with table := t }) ∧
      t.queue = s.table.queue ∧ t.nextPid = s.table.nextPid ∧
      ∀ j, t.slots j = if s.current cpu = j.val then (s.table.slots j).map (resume cpu frame)
        else s.table.slots j := by
  rcases h with hc | ⟨k, r, hk⟩
  · -- The CPU runs no process, so there is nothing to save.
    obtain ⟨q, hqueue, hdeq⟩ := dequeueNextRunnable_none hq
    refine ⟨{ s.table with runQueue := q }, ?_, hqueue, rfl, fun j => ?_⟩
    · simp only [scheduleFromIrq, hc, modifyCurrent_invalid, Exec.ok_bind, hdeq, Exec.pure_eq]
    · rw [hc, if_neg (slot_ne_invalidIdx j).symm]
  · -- The current process is taken off the CPU and put back.
    let t₁ := s.table.setSlot k (some (preempt frame r))
    have hpre : modifyCurrent s.table k.val (preempt frame) = .ok t₁ := by
      rw [modifyCurrent_val, hk.slot]
      rfl
    have hpass : ∀ x ∈ t₁.queue, Passed t₁ x := by
      intro x hx
      obtain ⟨i, rfl, hi⟩ := hq x hx
      have hik : i ≠ k := by
        rintro rfl
        exact hk.unqueued hx
      exact ⟨i, rfl, by rw [setSlot_slots_of_ne hik, hi]⟩
    obtain ⟨q, hqueue, hdeq⟩ := dequeueNextRunnable_none hpass
    have hres : resume cpu frame r =
        { preempt frame r with state := .running, runningOn := cpu } := by
      have hmark := preempt_inRunQueue hk.unmarked frame
      by_cases hrun : r.state = .running
      · simp [resume, preempt, hrun]
      · simp [resume, preempt, hrun, hk.unmarked hrun]
    let t₂ : ProcessTable := { t₁ with runQueue := q }.setSlot k (some (resume cpu frame r))
    refine ⟨t₂, ?_, hqueue, rfl, fun j => ?_⟩
    · simp only [scheduleFromIrq, hk.current, hpre, Exec.ok_bind, hdeq, modifyCurrent_val,
        Exec.pure_eq]
      simp [t₁, t₂, hres]
    · by_cases hjk : j = k
      · subst hjk
        simp [t₂, hk.current, hk.slot]
      · rw [setSlot_slots_of_ne hjk, hk.current, if_neg fun e => hjk (Fin.ext e.symm)]
        exact setSlot_slots_of_ne hjk

/-- With a process to take, `schedule_from_irq` puts the first such one on the CPU, returns the
frame that it was left with, and lets the interrupted process, if there is one, leave the CPU. -/
theorem scheduleFromIrq_some {s : Sched} {cpu : Cpu} (h : s.Settled cpu) (frame : ℕ)
    {i : Fin maxProcs} {p : Process} {pre post : List ℕ} (hq : s.table.queue = pre ++ i.val :: post)
    (hpre : ∀ x ∈ pre, Passed s.table x) (hp : s.table.slots i = some p)
    (htake : takeable (some p) = true) :
    ∃ t, scheduleFromIrq cpu frame s =
        .ok (p.contextSp, ⟨t, Function.update s.current cpu i.val, s.initFds⟩) ∧
      t.queue = post ++ pre ++ s.returning cpu ∧ t.nextPid = s.table.nextPid ∧
      t.slots i = some (dispatch cpu p) ∧
      ∀ j, j ≠ i → t.slots j = if s.current cpu = j.val then (s.table.slots j).map (leave frame)
        else s.table.slots j := by
  rcases h with hc | ⟨k, r, hk⟩
  · -- The CPU ran no process, so none leaves it.
    obtain ⟨q, hqr, hdeq⟩ := dequeueNextRunnable_some hq hpre (by rw [hp]; exact htake)
    let t : ProcessTable := { s.table with runQueue := q }.setSlot i (some (dispatch cpu p))
    refine ⟨t, ?_, ?_, rfl, setSlot_slots_self, fun j hj => ?_⟩
    · simp only [scheduleFromIrq, hc, modifyCurrent_invalid, Exec.ok_bind, hdeq, get_val, hp,
        setSlot_slots_self, Option.map_some, requeueCurrent_invalid, modify_val, Exec.pure_eq]
      simp [t, setSlot, dispatch]
    · simpa [t, queue, Sched.returning_invalid hc] using hqr
    · rw [setSlot_slots_of_ne hj, hc, if_neg (slot_ne_invalidIdx j).symm]
  · -- The interrupted process is saved before the queue is searched, and queued afterwards.
    have hki : k ≠ i := fun e => hk.unqueued (by rw [hq, e]; simp)
    let t₁ := s.table.setSlot k (some (preempt frame r))
    have hmod : modifyCurrent s.table k.val (preempt frame) = .ok t₁ := by
      rw [modifyCurrent_val, hk.slot]
      rfl
    have hp₁ : t₁.slots i = some p := (setSlot_slots_of_ne hki.symm).trans hp
    have hpass : ∀ x ∈ pre, Passed t₁ x := by
      intro x hx
      obtain ⟨j, rfl, hj⟩ := hpre x hx
      have hjk : j ≠ k := fun e => hk.unqueued (by rw [hq, ← e]; simp [hx])
      exact ⟨j, rfl, by rw [setSlot_slots_of_ne hjk, hj]⟩
    obtain ⟨q, hqr, hdeq⟩ :=
      dequeueNextRunnable_some (t := t₁) hq hpass (by rw [hp₁]; exact htake)
    rw [hp₁] at hdeq
    let t₂ : ProcessTable :=
      { t₁ with runQueue := q }.setSlot i (some { p with inRunQueue := false })
    have hlen : t₂.queue.length < maxProcs := by
      have hle : s.table.queue.length ≤ maxProcs := Ring.length_toList_le _
      have hq₂ : t₂.queue = post ++ pre := hqr
      simp only [hq, hq₂, List.length_append, List.length_cons] at hle ⊢
      omega
    obtain ⟨t₃, hreq, hpid, hqueue, hslot, hother⟩ := requeueCurrent_preempt hk.unmarked
      ((setSlot_slots_of_ne hki).trans setSlot_slots_self : t₂.slots k = _) hlen
    have hp₃ : t₃.slots i = some { p with inRunQueue := false } :=
      (hother i hki.symm).trans setSlot_slots_self
    refine ⟨t₃.setSlot i (some (dispatch cpu p)), ?_, ?_, hpid, setSlot_slots_self,
      fun j hj => ?_⟩
    · simp only [scheduleFromIrq, hk.current, hmod, Exec.ok_bind, hdeq, Option.map_some, get_val,
        setSlot_slots_self]
      rw [show ({ t₁ with runQueue := q } : ProcessTable).setSlot i
        (some { p with inRunQueue := false }) = t₂ from rfl, hreq]
      simp only [Exec.ok_bind, modify_val, hp₃, Option.map_some, setSlot_slots_self,
        Exec.pure_eq]
      rfl
    · rw [setSlot_queue, hqueue, hk.returning]
      exact congrArg (· ++ _) hqr
    · rw [setSlot_slots_of_ne hj, hk.current]
      by_cases hjk : j = k
      · subst hjk
        rw [hslot, if_pos rfl, hk.slot, Option.map_some]
      · rw [if_neg fun e => hjk (Fin.ext e.symm), hother j hjk]
        exact (setSlot_slots_of_ne hj).trans (setSlot_slots_of_ne hjk)

/-- Under the invariant, a CPU holds its current process. -/
theorem Inv.settled {s : Sched} (h : Inv s) (cpu : Cpu) : s.Settled cpu := by
  refine (h.current cpu).imp_right fun ⟨k, r, hc, hr, hrun⟩ => ⟨k, r, hc, hr, fun hmem => ?_, ?_⟩
  · exact h.not_current_of_queued hmem cpu hc
  · exact fun hne => absurd hrun.state hne

/-- Under the invariant, the current process goes back on the queue. -/
theorem Inv.returning {s : Sched} (h : Inv s) (cpu : Cpu) : s.returning cpu = leaving s cpu := by
  rcases h.current cpu with hc | ⟨k, r, hc, hr, hrun⟩
  · simp [Sched.returning_invalid hc, leaving, hc]
  · simp [Sched.returning, Sched.currentProcess_val hc, hr, Process.Requeues, hrun.state, leaving,
      hc, slot_ne_invalidIdx]

/-- With nothing queued, `schedule_from_irq` returns to the interrupted process and changes nothing
but its saved frame. -/
theorem scheduleFromIrq_idle {s : Sched} (h : Inv s) (cpu : Cpu) (frame : ℕ)
    (hq : s.table.queue = []) :
    ∃ t, scheduleFromIrq cpu frame s = .ok (frame, { s with table := t }) ∧ t.queue = [] ∧
      t.nextPid = s.table.nextPid ∧
      ∀ j, t.slots j = if s.current cpu = j.val then (s.table.slots j).map (resume cpu frame)
        else s.table.slots j := by
  obtain ⟨t, he, hqueue, hrest⟩ :=
    scheduleFromIrq_none (h.settled cpu) frame (by simp [hq])
  exact ⟨t, he, hqueue.trans hq, hrest⟩

/-- With processes queued, `schedule_from_irq` puts the first one on the CPU and the interrupted
process, if there is one, at the end of the queue. It returns the frame that the first one was
left with. -/
theorem scheduleFromIrq_switch {s : Sched} (h : Inv s) (cpu : Cpu) (frame : ℕ) {i : Fin maxProcs}
    {p : Process} {rest : List ℕ} (hq : s.table.queue = i.val :: rest)
    (hp : s.table.slots i = some p) :
    ∃ t, scheduleFromIrq cpu frame s =
        .ok (p.contextSp, ⟨t, Function.update s.current cpu i.val, s.initFds⟩) ∧
      t.queue = rest ++ leaving s cpu ∧ t.nextPid = s.table.nextPid ∧
      t.slots i = some (dispatch cpu p) ∧
      ∀ j, j ≠ i → t.slots j = if s.current cpu = j.val then (s.table.slots j).map (suspend frame)
        else s.table.slots j := by
  have hwait := h.waiting_of_head hq hp
  have hnone : ∀ x ∈ ([] : List ℕ), Passed s.table x := by simp
  obtain ⟨t, he, hqueue, hpid, hi, hother⟩ :=
    scheduleFromIrq_some (h.settled cpu) frame hq hnone hp hwait.takeable
  refine ⟨t, he, by simpa [h.returning] using hqueue, hpid, hi, fun j hj => ?_⟩
  rw [hother j hj]
  refine ite_congr rfl (fun hc => ?_) fun _ => rfl
  obtain ⟨k, r, hk, hr, hrun⟩ :=
    (h.current cpu).resolve_left fun e => slot_ne_invalidIdx j (hc.symm.trans e)
  rw [Fin.ext (hc.symm.trans hk), hr, Option.map_some, Option.map_some, leave, if_pos hrun.state]

/-! ## `start_on_cpu` -/

/-- With nothing to take, the `expect` of `start_on_cpu` fails. -/
theorem startOnCpu_none {s : Sched} (cpu : Cpu) (hq : ∀ x ∈ s.table.queue, Passed s.table x) :
    startOnCpu cpu s = .error .expect := by
  obtain ⟨q, -, hdeq⟩ := dequeueNextRunnable_none hq
  simp only [startOnCpu, hdeq, Exec.ok_bind]

/-- With a process to take, `start_on_cpu` puts the first such one on the CPU. It starts at the
entry point of the process, on an empty stack. -/
theorem startOnCpu_some {s : Sched} (cpu : Cpu) {i : Fin maxProcs} {p : Process}
    {pre post : List ℕ} (hq : s.table.queue = pre ++ i.val :: post)
    (hpre : ∀ x ∈ pre, Passed s.table x) (hp : s.table.slots i = some p)
    (htake : takeable (some p) = true) :
    ∃ t, startOnCpu cpu s =
        .ok ((p.entry, p.stackTop), ⟨t, Function.update s.current cpu i.val, s.initFds⟩) ∧
      t.queue = post ++ pre ∧ t.nextPid = s.table.nextPid ∧ t.slots i = some (dispatch cpu p) ∧
      ∀ j, j ≠ i → t.slots j = s.table.slots j := by
  obtain ⟨q, hqr, hdeq⟩ := dequeueNextRunnable_some hq hpre (by rw [hp]; exact htake)
  let t : ProcessTable := { s.table with runQueue := q }.setSlot i (some (dispatch cpu p))
  refine ⟨t, ?_, hqr, rfl, setSlot_slots_self, fun j hj => setSlot_slots_of_ne hj⟩
  simp only [startOnCpu, hdeq, hp, Exec.ok_bind, get_val, setSlot_slots_self, Option.map_some,
    modify_val, Exec.pure_eq]
  simp [t, setSlot, dispatch]

/-- With nothing queued, the `expect` of `start_on_cpu` fails. -/
theorem startOnCpu_nil {s : Sched} (cpu : Cpu) (hq : s.table.queue = []) :
    startOnCpu cpu s = .error .expect := startOnCpu_none cpu (by simp [hq])

/-- With processes queued, `start_on_cpu` puts the first one on the CPU. -/
theorem startOnCpu_cons {s : Sched} (h : Inv s) (cpu : Cpu) {i : Fin maxProcs} {p : Process}
    {rest : List ℕ} (hq : s.table.queue = i.val :: rest) (hp : s.table.slots i = some p) :
    ∃ t, startOnCpu cpu s =
        .ok ((p.entry, p.stackTop), ⟨t, Function.update s.current cpu i.val, s.initFds⟩) ∧
      t.queue = rest ∧ t.nextPid = s.table.nextPid ∧ t.slots i = some (dispatch cpu p) ∧
      ∀ j, j ≠ i → t.slots j = s.table.slots j := by
  have hnone : ∀ x ∈ ([] : List ℕ), Passed s.table x := by simp
  simpa using startOnCpu_some cpu hq hnone hp (h.waiting_of_head hq hp).takeable

/-! ## `create_with_mode` -/

/-- The search of `create_with_mode` for a free slot. -/
def freeSlot (t : ProcessTable) : Option (Fin maxProcs) :=
  (List.finRange maxProcs).find? fun i => (t.slots i).isNone

/-- The search finds a slot that holds no process. -/
theorem slots_of_freeSlot {t : ProcessTable} {i : Fin maxProcs} (h : freeSlot t = some i) :
    t.slots i = none := by
  simpa using List.find?_some h

/-- Without a free slot, the state is left as it is. -/
theorem createWithMode_none {s : Sched} (env : Env) (name : String) (entry stackTop : ℕ)
    (mode : ProcessMode) (parent : Option ℕ) (h : freeSlot s.table = none) :
    createWithMode env name entry stackTop mode parent s = (none, s) := by
  rw [freeSlot] at h
  simp only [createWithMode, h]

/-- A full table is left as it is. -/
theorem createWithMode_full {s : Sched} (env : Env) (name : String) (entry stackTop : ℕ)
    (mode : ProcessMode) (parent : Option ℕ) (hfull : ∀ i, (s.table.slots i).isSome) :
    createWithMode env name entry stackTop mode parent s = (none, s) := by
  refine createWithMode_none env name entry stackTop mode parent ?_
  rw [freeSlot, List.find?_eq_none]
  intro i _
  simpa [← Option.isSome_iff_ne_none] using hfull i

/-- A new process goes to the first free slot, waiting at the end of the queue, with the next pid
and a frame at the top of its stack. -/
theorem createWithMode_some {s : Sched} (env : Env) (name : String) (entry stackTop : ℕ)
    (mode : ProcessMode) (parent : Option ℕ) {i : Fin maxProcs} (h : freeSlot s.table = some i)
    (hlen : s.table.queue.length < maxProcs) :
    ∃ (p : Process) (t : ProcessTable),
      createWithMode env name entry stackTop mode parent s =
        (some s.table.nextPid, { s with table := t }) ∧
      t.nextPid = max ((s.table.nextPid + 1) % 2^32) 1 ∧
      t.queue = s.table.queue ++ [i.val] ∧ t.slots i = some p ∧ p.Waiting ∧
      p.id = s.table.nextPid ∧ p.parent = parent ∧ p.fds = inheritedFds s parent ∧
      p.stackTop = (if stackTop = 0 then env.ownStackTop i else stackTop) ∧
      p.contextSp = initContext p.stackTop ∧
      ∀ j, j ≠ i → t.slots j = s.table.slots j := by
  rw [freeSlot] at h
  simp only [createWithMode, h, allocPid]
  refine ⟨_, _, rfl, rfl, ?_, setSlot_slots_self, ⟨rfl, rfl, rfl⟩, rfl, rfl, rfl, rfl, rfl,
    fun j hj => setSlot_slots_of_ne hj⟩
  exact pushQueue_queue (by simpa [queue] using hlen)

/-- Under the invariant, the first free slot is the one of the next pid. -/
theorem createWithMode_free {s : Sched} (h : Inv s) (env : Env) (name : String)
    (entry stackTop : ℕ) (mode : ProcessMode) (parent : Option ℕ)
    (hfree : s.table.nextPid ≤ maxProcs) :
    ∃ (i : Fin maxProcs) (p : Process) (t : ProcessTable),
      createWithMode env name entry stackTop mode parent s =
        (some s.table.nextPid, { s with table := t }) ∧
      i.val + 1 = s.table.nextPid ∧ t.nextPid = s.table.nextPid + 1 ∧
      t.queue = s.table.queue ++ [i.val] ∧ t.slots i = some p ∧ p.Waiting ∧
      p.id = s.table.nextPid ∧ p.parent = parent ∧ p.fds = inheritedFds s parent ∧
      p.stackTop = (if stackTop = 0 then env.ownStackTop i else stackTop) ∧
      p.contextSp = initContext p.stackTop ∧
      ∀ j, j ≠ i → t.slots j = s.table.slots j := by
  have hpos := h.nextPid.1
  let i : Fin maxProcs := ⟨s.table.nextPid - 1, by omega⟩
  have hi : i.val + 1 = s.table.nextPid := by
    show s.table.nextPid - 1 + 1 = s.table.nextPid
    omega
  have hnone : s.table.slots i = none := by
    rw [← Option.not_isSome_iff_eq_none, h.used]
    omega
  -- The slots below the next pid are in use, so the search stops at `i`.
  have hfind : freeSlot s.table = some i := by
    rw [freeSlot, List.find?_eq_some_iff_getElem]
    refine ⟨by simp [hnone], i.val, by simp, by simp, fun j hj => ?_⟩
    have hji : j < maxProcs := hj.trans i.isLt
    simpa using (h.used ⟨j, hji⟩).mpr (show j + 1 < s.table.nextPid by omega)
  have hpid : max ((s.table.nextPid + 1) % 2^32) 1 = s.table.nextPid + 1 := by
    unfold maxProcs at hfree
    omega
  have hqueue : i.val ∉ s.table.queue := by
    intro hmem
    obtain ⟨j, p, hj, hp, -⟩ := h.queued _ hmem
    rw [← Fin.ext hj, hnone] at hp
    cases hp
  obtain ⟨p, t, he, hnext, hrest⟩ :=
    createWithMode_some env name entry stackTop mode parent hfind (h.length_lt hqueue)
  exact ⟨i, p, t, he, hi, hnext.trans hpid, hrest⟩

end Ralix.Kernel
