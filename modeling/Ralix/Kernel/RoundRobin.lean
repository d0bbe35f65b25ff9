import Ralix.Kernel.History

/-!
# Round robin

In every run of the scheduler's critical sections, all that is on the run queue may be taken
(`Lined`). So `dequeue_next_runnable` never passes an entry over, and the run queue is a FIFO: a
dispatch takes its head, and the process that leaves the CPU goes to its end (`Lined.dispatches`).
Over a run, what is dispatched is what was queued at first, in that order, and then what was queued
since (`Lined.fifo`).
-/

namespace Ralix.Kernel

open Lib ProcessTable

/-- The state of a run. All that is queued may be taken. -/
structure Lined (s : Sched) : Prop where
  recorded : ∃ ts, Recorded ts s
  waiting : ∀ x ∈ s.table.queue, ∃ i : Fin maxProcs, x = i.val ∧ takeable (s.table.slots i) = true

/-- A preempted process may be taken. -/
theorem takeable_leave {frame : ℕ} {r : Process} (h : r.state = .running) :
    takeable (some (leave frame r)) = true := by
  rw [leave, if_pos h]
  rfl

/-- An entry that is passed over may not be taken. -/
theorem Passed.not_takeable {t : ProcessTable} {x : ℕ} (h : Passed t x) {i : Fin maxProcs}
    (hx : x = i.val) : takeable (t.slots i) ≠ true := by
  obtain ⟨j, hj, hnot⟩ := h
  rw [Fin.ext (hx.symm.trans hj), hnot]
  exact Bool.false_ne_true

namespace Lined

variable {s s' : Sched} {cpu : Cpu} {env : Env}

/-- The state after `process::init`. -/
theorem init : Lined init := ⟨⟨[], Recorded.init⟩, by simp [Kernel.init]⟩

/-- The run queue, the `CURRENT` indices, and the marks agree. -/
theorem placed (h : Lined s) : Placed s := by
  obtain ⟨ts, hrec⟩ := h.recorded
  exact hrec.placed

/-- The process that a CPU takes is the head of the queue. -/
theorem takes_head (h : Lined s) {i : Fin maxProcs} {p : Process} {pre post : List ℕ}
    (ht : Takes s i p pre post) : pre = [] := by
  cases pre with
  | nil => rfl
  | cons x pre =>
    obtain ⟨j, hj, htake⟩ := h.waiting x (by rw [ht.queue]; exact List.mem_cons_self)
    exact absurd htake ((ht.passed x List.mem_cons_self).not_takeable hj)

/-- A CPU finds nothing to take only if nothing is queued. -/
theorem queue_eq_nil (h : Lined s) (hpass : ∀ x ∈ s.table.queue, Passed s.table x) :
    s.table.queue = [] := by
  apply List.eq_nil_iff_forall_not_mem.mpr
  intro x hx
  obtain ⟨j, hj, htake⟩ := h.waiting x hx
  exact (hpass x hx).not_takeable hj htake

/-- What goes back on the queue is the current process, if there is one. -/
theorem returning_eq (h : Lined s) (cpu : Cpu) : s.returning cpu = leaving s cpu := by
  obtain ⟨ts, hrec⟩ := h.recorded
  rcases h.placed.current cpu with hc | ⟨k, r, hk, hr, -, hmark⟩
  · rw [Sched.returning_invalid hc, leaving, if_pos hc]
  · have hrun := hrec.running cpu k r hk hr
    have hne : s.current cpu ≠ invalidIdx := hk ▸ slot_ne_invalidIdx k
    have hholds : s.Holds cpu k r := ⟨hk, hr, fun hmem => h.placed.not_current hmem cpu hk,
      fun _ => hmark⟩
    rw [hholds.returning, if_pos (.inl hrun), leaving, if_neg hne, hk]

/-! ## Single steps -/

/-- A new process may be taken. -/
theorem create_waiting (h : Lined s) (hs : Creates s s') : ∀ x ∈ s'.table.queue,
    ∃ i : Fin maxProcs, x = i.val ∧ takeable (s'.table.slots i) = true := by
  cases hs with
  | full => exact h.waiting
  | @create t i p hfree hqueue hslot hwait hcontext hother =>
    rintro x (hx : x ∈ t.queue)
    rw [hqueue, List.mem_append, List.mem_singleton] at hx
    rcases hx with hx | rfl
    · obtain ⟨j, hj, htake⟩ := h.waiting x hx
      have hji : j ≠ i := by
        rintro rfl
        rw [hfree] at htake
        cases htake
      exact ⟨j, hj, by rwa [hother j hji]⟩
    · exact ⟨i, rfl, by rw [hslot]; exact hwait.takeable⟩

/-- What stays queued while a CPU takes a process may still be taken. -/
theorem rest_waiting (h : Lined s) (cpu : Cpu) {t : ProcessTable} {i : Fin maxProcs} {p : Process}
    {pre post : List ℕ} (ht : Takes s i p pre post)
    (hother : ∀ j, j ≠ i → s.current cpu ≠ j.val → t.slots j = s.table.slots j) {x : ℕ}
    (hx : x ∈ post ++ pre) : ∃ j : Fin maxProcs, x = j.val ∧ takeable (t.slots j) = true := by
  obtain ⟨hmem, hne⟩ := (ht.mem_rest h.placed.nodup).mp hx
  obtain ⟨j, rfl, htake⟩ := h.waiting x hmem
  have hji : j ≠ i := fun e => hne (congrArg _ e)
  exact ⟨j, rfl, by rwa [hother j hji (h.placed.not_current hmem cpu)]⟩

/-- Taking a process leaves only processes on the queue that may be taken. -/
theorem start_waiting (h : Lined s) (hs : Starts cpu s s') : ∀ x ∈ s'.table.queue,
    ∃ i : Fin maxProcs, x = i.val ∧ takeable (s'.table.slots i) = true := by
  cases hs with
  | @start t i p pre post htakes hqueue htaken hother =>
    rintro x (hx : x ∈ t.queue)
    rw [hqueue] at hx
    exact h.rest_waiting cpu htakes (fun j hj _ => hother j hj) hx

/-- `schedule_from_irq` leaves only processes on the queue that may be taken. -/
theorem schedule_waiting (h : Lined s) {frame r : ℕ} (hs : Schedules cpu frame s r s') :
    ∀ x ∈ s'.table.queue,
      ∃ i : Fin maxProcs, x = i.val ∧ takeable (s'.table.slots i) = true := by
  obtain ⟨ts, hrec⟩ := h.recorded
  cases hs with
  | @resume t hpass hqueue hslots =>
    rintro x (hx : x ∈ t.queue)
    rw [hqueue, h.queue_eq_nil hpass] at hx
    cases hx
  | @switch t i p pre post htakes hqueue htaken hother =>
    rintro x (hx : x ∈ t.queue)
    rw [hqueue, List.mem_append] at hx
    rcases hx with hx | hx
    · exact h.rest_waiting cpu htakes (fun j hj hc => by rw [hother j hj, if_neg hc]) hx
    · -- The process that leaves the CPU was `Running`, so it is `Ready` now.
      have hcur := (Sched.mem_returning hx).symm
      rcases h.placed.current cpu with hc | ⟨k, r, hk, hr, -⟩
      · rw [Sched.returning_invalid hc] at hx
        cases hx
      · have hki : k ≠ i := fun e => h.placed.not_current htakes.mem cpu (hk.trans (congrArg _ e))
        refine ⟨k, hcur.symm.trans hk, ?_⟩
        show takeable (t.slots k) = true
        rw [hother k hki, if_pos hk, hr]
        exact takeable_leave (hrec.running cpu k r hk hr)

/-- Every operation keeps the queue so. -/
theorem op (h : Lined s) {o : Op} (hs : o.Step env s s') : Lined s' := by
  obtain ⟨ts, hrec⟩ := h.recorded
  refine ⟨⟨_, hrec.op hs⟩, ?_⟩
  cases o with
  | create name entry stackTop mode parent =>
    cases hs
    exact h.create_waiting (h.placed.creates env name entry stackTop mode parent)
  | start cpu =>
    obtain ⟨⟨r, s''⟩, hr, hs'⟩ := Exec.bind_eq_ok.mp hs
    cases hs'
    exact h.start_waiting (h.placed.starts hr)
  | schedule cpu frame =>
    obtain ⟨⟨r, s''⟩, hr, hs'⟩ := Exec.bind_eq_ok.mp hs
    cases hs'
    exact h.schedule_waiting (h.placed.schedules hr)

/-- The states of a run. -/
theorem of_trace {ts : List (Transition Sched Op)} (h : Trace Kernel.init (Op.Step env) ts s) :
    Lined s :=
  h.inv init fun _ _ _ hl hs => hl.op hs

/-- `schedule_from_irq` goes over to the head of the queue, and puts the process that leaves the CPU, if
there is one, at its end. -/
theorem dispatches (h : Lined s) (cpu : Cpu) (frame : ℕ) {x : ℕ} {rest : List ℕ}
    (hq : s.table.queue = x :: rest) : ∃ (i : Fin maxProcs) (p : Process) (t : ProcessTable),
      x = i.val ∧ s.table.slots i = some p ∧ t.slots i = some (dispatch cpu p) ∧
      scheduleFromIrq cpu frame s =
        .ok (p.contextSp, ⟨t, Function.update s.current cpu x, s.initFds⟩) ∧
      t.queue = rest ++ leaving s cpu := by
  obtain ⟨i, rfl, htake⟩ := h.waiting x (by rw [hq]; exact List.mem_cons_self)
  obtain ⟨j, p, hj, hp, -⟩ := h.placed.queued i.val (by rw [hq]; exact List.mem_cons_self)
  rw [← Fin.ext hj] at hp
  have hnone : ∀ y ∈ ([] : List ℕ), Passed s.table y := by simp
  obtain ⟨t, he, hqueue, -, hi, -⟩ := scheduleFromIrq_some (h.placed.settled cpu) frame hq hnone hp
    (hp ▸ htake)
  refine ⟨i, p, t, rfl, hp, hi, he, ?_⟩
  rw [hqueue, List.append_nil, h.returning_eq]

/-- With nothing queued, `schedule_from_irq` goes back to the interrupted process. -/
theorem resumes (h : Lined s) (cpu : Cpu) (frame : ℕ) (hq : s.table.queue = []) :
    ∃ t, scheduleFromIrq cpu frame s = .ok (frame, { s with table := t }) ∧ t.queue = [] := by
  have hpass : ∀ y ∈ s.table.queue, Passed s.table y := by simp [hq]
  obtain ⟨t, he, hqueue, -⟩ := scheduleFromIrq_none (h.placed.settled cpu) frame hpass
  exact ⟨t, he, hqueue.trans hq⟩

end Lined

/-- A slot with a process keeps it. -/
def Sched.KeepsPids (s s' : Sched) : Prop :=
  ∀ (i : Fin maxProcs) (p : Process), s.table.slots i = some p →
    ∃ p', s'.table.slots i = some p' ∧ p'.id = p.id

/-- What leaves a CPU is still the same process. -/
theorem leave_id (frame : ℕ) (r : Process) : (leave frame r).id = r.id := by
  unfold leave
  split
  · rfl
  · rfl

namespace Lined

variable {s s' : Sched} {env : Env}

/-- No operation moves a process to another slot. -/
theorem keepsPids (h : Lined s) {o : Op} (hs : o.Step env s s') : s.KeepsPids s' := by
  intro i p hp
  obtain ⟨p', hp', halters⟩ := h.placed.alters hs hp
  refine ⟨p', hp', ?_⟩
  cases halters with
  | same => rfl
  | dispatch cpu => rfl
  | resume cpu frame hcur => rfl
  | leave cpu frame hcur => exact leave_id frame p

/-- No run moves a process to another slot. -/
theorem run_keepsPids (h : Lined s) {us : List (Transition Sched Op)}
    (hrun : Trace s (Op.Step env) us s') : s.KeepsPids s' := by
  have hinv := hrun.inv (P := fun t => Lined t ∧ s.KeepsPids t)
    ⟨h, fun i p hp => ⟨p, hp, rfl⟩⟩ fun t o t' ht hs => ⟨ht.1.op hs, fun i p hp => ?_⟩
  · exact hinv.2
  · obtain ⟨q, hq, hid⟩ := ht.2 i p hp
    obtain ⟨q', hq', hid'⟩ := ht.1.keepsPids hs i q hq
    exact ⟨q', hq', hid'.trans hid⟩

end Lined

/-! ## Whole runs -/

/-- The process that a step puts on a CPU. -/
def dispatched (x : Transition Sched Op) : List ℕ :=
  match x.act with
  | .create .. => []
  | .start cpu => [x.post.current cpu]
  | .schedule cpu _ => if x.pre.table.queue = [] then [] else [x.post.current cpu]

/-- The process that a step puts at the end of the run queue: a new one, or the one that it preempts. -/
def enqueued (x : Transition Sched Op) : List ℕ :=
  match x.act with
  | .create .. => ((freeSlot x.pre.table).map Fin.val).toList
  | .start _ => []
  | .schedule cpu _ => if x.pre.table.queue = [] then [] else leaving x.pre cpu

namespace Lined

variable {s s' : Sched} {env : Env}

/-- A step takes what it dispatches from the front of the queue, and puts what it enqueues to the
end. -/
theorem step_fifo (h : Lined s) {o : Op} (hs : o.Step env s s') :
    s.table.queue ++ enqueued ⟨s, o, s'⟩ = dispatched ⟨s, o, s'⟩ ++ s'.table.queue := by
  cases o with
  | create name entry stackTop mode parent =>
    cases hs
    show s.table.queue ++ ((freeSlot s.table).map Fin.val).toList = _ ++ _
    match hfree : freeSlot s.table with
    | none =>
      rw [createWithMode_none env name entry stackTop mode parent hfree]
      simp [dispatched]
    | some i =>
      have hnone := slots_of_freeSlot hfree
      obtain ⟨p, t, he, -, hqueue, -⟩ := createWithMode_some env name entry stackTop mode parent
        hfree (h.placed.length_lt (h.placed.free hnone).1)
      rw [he]
      exact hqueue.symm
  | start cpu =>
    obtain ⟨⟨r, s''⟩, hr, hs'⟩ := Exec.bind_eq_ok.mp hs
    cases hs'
    cases h.placed.starts hr with
    | @start t i p pre post htakes hqueue htaken hother =>
      -- Nothing is passed over, so the process that is taken is the head.
      have hpre := h.takes_head htakes
      have hhead := htakes.queue
      rw [hpre, List.nil_append] at hhead
      rw [hpre, List.append_nil] at hqueue
      show s.table.queue ++ [] = [Function.update s.current cpu i.val cpu] ++ t.queue
      rw [Function.update_self, hqueue, List.append_nil, hhead, List.singleton_append]
  | schedule cpu frame =>
    obtain ⟨⟨r, s''⟩, hr, hs'⟩ := Exec.bind_eq_ok.mp hs
    cases hs'
    match hq : s.table.queue with
    | [] =>
      obtain ⟨t, he, hqueue⟩ := h.resumes cpu frame hq
      rw [he] at hr
      cases hr
      simp only [enqueued, dispatched, hq, if_true, List.nil_append]
      exact hqueue.symm
    | x :: rest =>
      obtain ⟨i, p, t, -, -, -, he, hqueue⟩ := h.dispatches cpu frame hq
      rw [he] at hr
      cases hr
      simp only [enqueued, dispatched, hq, if_neg (List.cons_ne_nil x rest), Function.update_self]
      show x :: rest ++ leaving s cpu = [x] ++ t.queue
      rw [hqueue, List.singleton_append, List.cons_append]

/-- A run dispatches what was queued at first, in order, and then what was queued since. -/
theorem fifo (h : Lined s) {us : List (Transition Sched Op)} (hrun : Trace s (Op.Step env) us s') :
    s.table.queue ++ yielded enqueued us = yielded dispatched us ++ s'.table.queue :=
  hrun.fifo h (fun _ _ _ hl hs => hl.op hs) fun _ _ _ hl hs => hl.step_fifo hs

end Lined

/-- In every state that a run reaches, the ring of the run queue holds a list of at most 64 slots, and
`schedule_from_irq` dispatches the process of the first and appends the one that leaves the CPU. In
every run from there, processes stay in their slots, and the one at position `k` of the list is put on
a CPU by the dispatch that follows `k` others. -/
theorem round_robin (env : Env) (ts : List (Transition Sched Op)) (s : Sched)
    (h : Trace init (Op.Step env) ts s) :
    s.table.runQueue.toList.length ≤ 64 ∧
      (∀ (cpu : Cpu) (frame x : ℕ) (rest : List ℕ), s.table.runQueue.toList = x :: rest →
        ∃ (i : Fin maxProcs) (p : Process) (t : ProcessTable), x = i.val ∧
          s.table.slots i = some p ∧ t.slots i = some (dispatch cpu p) ∧
          scheduleFromIrq cpu frame s =
            .ok (p.contextSp, ⟨t, Function.update s.current cpu x, s.initFds⟩) ∧
          t.runQueue.toList =
            rest ++ if s.current cpu = invalidIdx then [] else [s.current cpu]) ∧
      ∀ (us : List (Transition Sched Op)) (s' : Sched), Trace s (Op.Step env) us s' →
        s.KeepsPids s' ∧
        s.table.runQueue.toList ++ yielded enqueued us =
          yielded dispatched us ++ s'.table.runQueue.toList ∧
        ∀ k, k < s.table.runQueue.toList.length → k < (yielded dispatched us).length →
          (yielded dispatched us)[k]? = s.table.runQueue.toList[k]? := by
  have hl := Lined.of_trace h
  refine ⟨Ring.length_toList_le _, fun cpu frame x rest hq => hl.dispatches cpu frame hq,
    fun us s' hrun => ⟨hl.run_keepsPids hrun, hl.fifo hrun,
      fun k hk hk' => getElem?_of_fifo (hl.fifo hrun) hk' hk⟩⟩

/-- Three processes, of which two are started. -/
def threeProcesses : List Op :=
  [.create "a" 0 0 .user none, .create "b" 0 0 .user none, .create "c" 0 0 .user none, .start 0,
    .start 1]

/-- After `threeProcesses`, the third process is queued. -/
theorem replay_threeProcesses : (replay (Op.run sampleEnv) threeProcesses [] init >>= fun x =>
    return (x.2.table.runQueue.toList, x.2.current 1)) = .ok ([2], 1) := by
  decide +kernel

/-- `round_robin` after `threeProcesses`: the tick of the second CPU puts the third process there, and
the second at the end of the queue. -/
theorem round_robin_threeProcesses : ∃ ts s, Trace init (Op.Step sampleEnv) ts s ∧
    ∃ (p : Process) (t : ProcessTable), scheduleFromIrq 1 0x1000 s =
        .ok (p.contextSp, ⟨t, Function.update s.current 1 2, s.initFds⟩) ∧
      t.runQueue.toList = [1] := by
  obtain ⟨⟨ts, s⟩, hrun, hfacts⟩ := Exec.bind_eq_ok.mp replay_threeProcesses
  simp only [Exec.pure_eq, Except.ok.injEq, Prod.mk.injEq] at hfacts
  obtain ⟨hqueue, hcur⟩ := hfacts
  have htrace : Trace init (Op.Step sampleEnv) ts s := Trace.of_replay .nil hrun
  obtain ⟨i, p, t, -, -, -, he, hq⟩ :=
    (round_robin sampleEnv ts s htrace).2.1 1 0x1000 2 [] hqueue
  refine ⟨ts, s, htrace, p, t, he, ?_⟩
  rw [hq, hcur]
  rfl

end Ralix.Kernel
