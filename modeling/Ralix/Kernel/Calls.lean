import Ralix.Kernel.Runs
import Ralix.Lib.Trace

/-!
# Calls in any order

Runs in which a CPU may call `start_on_cpu` at any time, and in which `set_state` may give any
process any state. `Inv` does not hold in all of them, since a state can then disagree with where
the process is. `Placed` is what is left of it: it speaks of the queue, the `CURRENT` indices,
`running_on`, and `in_run_queue`, and of no state. Every call keeps it (`Placed.call`), and under it
`Placed.schedules` and `Placed.starts` say what `schedule_from_irq` and `start_on_cpu` did when they
returned.
-/

namespace Ralix.Kernel

open Lib ProcessTable

/-- A call into the process module. -/
inductive Call where
  | op (op : Op)
  | setState (pid : ℕ) (state : ProcessState)

/-- The state after a call. -/
def Call.run (env : Env) : Call → Sched → Exec Sched
  | op o, s => o.run env s
  | setState pid state, s => .ok (Kernel.setState pid state s).2

/-- A call that returned. One that panics stops the machine, and nothing follows it. -/
def Call.Step (env : Env) (s : Sched) (c : Call) (s' : Sched) : Prop := c.run env s = .ok s'

/-- An operation that returned, on a CPU in any state. -/
def Op.Step (env : Env) (s : Sched) (o : Op) (s' : Sched) : Prop := o.run env s = .ok s'

/-- How the run queue, the `CURRENT` indices, and the fields of the processes that say where they
are agree, whatever their states are. -/
structure Placed (s : Sched) : Prop where
  /-- No index is on the queue twice. -/
  nodup : s.table.queue.Nodup
  /-- A queued index is the slot of a process that is marked as queued. -/
  queued : ∀ x ∈ s.table.queue, ∃ (i : Fin maxProcs) (p : Process),
    x = i.val ∧ s.table.slots i = some p ∧ p.inRunQueue = true
  /-- A current index is the slot of a process that runs on the CPU, and is not marked. -/
  current : ∀ c, s.current c = invalidIdx ∨ ∃ (k : Fin maxProcs) (r : Process),
    s.current c = k.val ∧ s.table.slots k = some r ∧ r.runningOn = c.val ∧ r.inRunQueue = false
  /-- A process that runs on no CPU is queued. -/
  parked : ∀ (i : Fin maxProcs) (p : Process), s.table.slots i = some p →
    p.runningOn = cpuNone → i.val ∈ s.table.queue

namespace Placed

variable {s s' : Sched} {cpu : Cpu}

/-- The state after `process::init`. -/
theorem init : Placed init where
  nodup := by simp [Kernel.init]
  queued := by simp [Kernel.init]
  current _ := .inl rfl
  parked := by simp [Kernel.init]

/-- A queued process is not current on any CPU. -/
theorem not_current (h : Placed s) {x : ℕ} (hx : x ∈ s.table.queue) (c : Cpu) :
    s.current c ≠ x := by
  intro hc
  obtain ⟨i, p, rfl, hp, hmark⟩ := h.queued x hx
  rcases h.current c with hinv | ⟨k, r, hk, hr, -, hunmark⟩
  · exact slot_ne_invalidIdx i (hc.symm.trans hinv)
  · rw [← Fin.ext (hc.symm.trans hk), hp] at hr
    cases hr
    rw [hmark] at hunmark
    cases hunmark

/-- The process of a current slot runs on the CPU, and is not marked. -/
theorem of_current (h : Placed s) {k : Fin maxProcs} {r : Process} (hk : s.current cpu = k.val)
    (hr : s.table.slots k = some r) : r.runningOn = cpu.val ∧ r.inRunQueue = false := by
  obtain ⟨k', r', hk', hr', hrun⟩ :=
    (h.current cpu).resolve_left fun e => slot_ne_invalidIdx k (hk.symm.trans e)
  rw [← Fin.ext (hk.symm.trans hk'), hr] at hr'
  cases hr'
  exact hrun

/-- Two CPUs with the same current slot are the same. -/
theorem current_inj (h : Placed s) {c d : Cpu} {k : Fin maxProcs} (hc : s.current c = k.val)
    (hd : s.current d = k.val) : c = d := by
  obtain ⟨k', r, hk', hr, -⟩ :=
    (h.current c).resolve_left fun e => slot_ne_invalidIdx k (hc.symm.trans e)
  rw [← Fin.ext (hc.symm.trans hk')] at hr
  exact Fin.ext ((h.of_current hc hr).1.symm.trans (h.of_current hd hr).1)

/-- A CPU's current slot holds a process. -/
theorem exists_current (h : Placed s) {k : Fin maxProcs} (hk : s.current cpu = k.val) :
    ∃ r, s.table.slots k = some r := by
  obtain ⟨k', r, hk', hr, -⟩ :=
    (h.current cpu).resolve_left fun e => slot_ne_invalidIdx k (hk.symm.trans e)
  exact ⟨r, by rw [Fin.ext (hk.symm.trans hk'), hr]⟩

/-- A CPU holds its current process as the scheduler needs it. -/
theorem settled (h : Placed s) (cpu : Cpu) : s.Settled cpu := by
  refine (h.current cpu).imp_right fun ⟨k, r, hc, hr, _, hmark⟩ =>
    ⟨k, r, hc, hr, fun hmem => h.not_current hmem cpu hc, fun _ => hmark⟩

/-- The queue is shorter than the table when some slot's index is not on it. -/
theorem length_lt (h : Placed s) {i : Fin maxProcs} (hi : i.val ∉ s.table.queue) :
    s.table.queue.length < maxProcs := by
  refine length_lt_of_nodup h.nodup (fun x hx => ?_) hi
  obtain ⟨j, -, rfl, -⟩ := h.queued x hx
  exact j.isLt

/-- The index of a free slot is neither queued nor current. -/
theorem free (h : Placed s) {i : Fin maxProcs} (hi : s.table.slots i = none) :
    i.val ∉ s.table.queue ∧ ∀ c, s.current c ≠ i.val := by
  refine ⟨fun hmem => ?_, fun c hc => ?_⟩
  · obtain ⟨j, p, hj, hp, -⟩ := h.queued _ hmem
    rw [← Fin.ext hj, hi] at hp
    cases hp
  · obtain ⟨r, hr⟩ := h.exists_current hc
    rw [hi] at hr
    cases hr

end Placed

/-! ## What the calls did -/

/-- Either nothing in a list of slots may be taken, or some index is the first that may. -/
theorem exists_takeable (t : ProcessTable) {l : List ℕ}
    (hl : ∀ x ∈ l, ∃ i : Fin maxProcs, x = i.val) :
    (∀ x ∈ l, Passed t x) ∨ ∃ (pre post : List ℕ) (i : Fin maxProcs) (p : Process),
      l = pre ++ i.val :: post ∧ (∀ x ∈ pre, Passed t x) ∧ t.slots i = some p ∧
        takeable (some p) = true := by
  induction l with
  | nil => exact .inl (by simp)
  | cons x l ih =>
    obtain ⟨⟨i, rfl⟩, hrest⟩ := List.forall_mem_cons.mp hl
    by_cases htake : takeable (t.slots i) = true
    · -- An empty slot may not be taken.
      obtain ⟨p, hp⟩ : ∃ p, t.slots i = some p := by
        rw [← Option.isSome_iff_exists]
        by_contra hnone
        rw [Option.not_isSome_iff_eq_none.mp hnone] at htake
        cases htake
      rw [hp] at htake
      exact .inr ⟨[], l, i, p, rfl, by simp, hp, htake⟩
    · have hpass : Passed t i.val := ⟨i, rfl, by simpa using htake⟩
      rcases ih hrest with hall | ⟨pre, post, j, q, rfl, hpre, hq, htake⟩
      · exact .inl (List.forall_mem_cons.mpr ⟨hpass, hall⟩)
      · exact .inr ⟨i.val :: pre, post, j, q, rfl, List.forall_mem_cons.mpr ⟨hpass, hpre⟩, hq, htake⟩

/-- The process that a CPU takes from the queue: the first that may be taken. -/
structure Takes (s : Sched) (i : Fin maxProcs) (p : Process) (pre post : List ℕ) : Prop where
  queue : s.table.queue = pre ++ i.val :: post
  passed : ∀ x ∈ pre, Passed s.table x
  slot : s.table.slots i = some p
  takeable : takeable (some p) = true

/-- A process that may be taken is `Ready` and runs nowhere. -/
theorem Takes.ready {s : Sched} {i : Fin maxProcs} {p : Process} {pre post : List ℕ}
    (h : Takes s i p pre post) : p.state = .ready ∧ p.runningOn = cpuNone := by
  simpa [Kernel.takeable] using h.takeable

/-- A process that is taken was queued. -/
theorem Takes.mem {s : Sched} {i : Fin maxProcs} {p : Process} {pre post : List ℕ}
    (h : Takes s i p pre post) : i.val ∈ s.table.queue := by
  rw [h.queue]
  exact List.mem_append_right _ List.mem_cons_self

/-- The rest of the queue after a process was taken. -/
theorem Takes.mem_rest {s : Sched} {i : Fin maxProcs} {p : Process} {pre post : List ℕ}
    (h : Takes s i p pre post) (hnd : s.table.queue.Nodup) {x : ℕ} :
    x ∈ post ++ pre ↔ x ∈ s.table.queue ∧ x ≠ i.val := by
  rw [h.queue, List.nodup_middle, List.nodup_cons] at hnd
  rw [h.queue]
  constructor
  · intro hx
    have hx' : x ∈ pre ++ post := by
      rw [List.mem_append] at hx ⊢
      exact hx.symm
    refine ⟨?_, fun e => hnd.1 (e ▸ hx')⟩
    rw [List.mem_append, List.mem_cons]
    exact (List.mem_append.mp hx').imp_right .inr
  · rintro ⟨hx, hne⟩
    rw [List.mem_append, List.mem_cons] at hx
    rw [List.mem_append]
    exact hx.symm.imp_left fun hx => hx.resolve_left hne

/-- What a call of `schedule_from_irq` did: the frame it returned, and the state after it. -/
inductive Schedules (cpu : Cpu) (frame : ℕ) (s : Sched) : ℕ → Sched → Prop
  /-- It found nothing to take, and went back to the interrupted process. -/
  | resume {t : ProcessTable} (passed : ∀ x ∈ s.table.queue, Passed s.table x)
      (queue : t.queue = s.table.queue)
      (slots : ∀ j, t.slots j = if s.current cpu = j.val
        then (s.table.slots j).map (resume cpu frame) else s.table.slots j) :
      Schedules cpu frame s frame { s with table := t }
  /-- It took a process. -/
  | switch {t : ProcessTable} {i : Fin maxProcs} {p : Process} {pre post : List ℕ}
      (takes : Takes s i p pre post) (queue : t.queue = post ++ pre ++ s.returning cpu)
      (taken : t.slots i = some (dispatch cpu p))
      (other : ∀ j, j ≠ i → t.slots j = if s.current cpu = j.val
        then (s.table.slots j).map (leave frame) else s.table.slots j) :
      Schedules cpu frame s p.contextSp ⟨t, Function.update s.current cpu i.val, s.initFds⟩

/-- What a call of `start_on_cpu` did. -/
inductive Starts (cpu : Cpu) (s : Sched) : Sched → Prop
  | start {t : ProcessTable} {i : Fin maxProcs} {p : Process} {pre post : List ℕ}
      (takes : Takes s i p pre post) (queue : t.queue = post ++ pre)
      (taken : t.slots i = some (dispatch cpu p))
      (other : ∀ j, j ≠ i → t.slots j = s.table.slots j) :
      Starts cpu s ⟨t, Function.update s.current cpu i.val, s.initFds⟩

/-- What a call of `create_with_mode` did. -/
inductive Creates (s : Sched) : Sched → Prop
  | full : Creates s s
  | create {t : ProcessTable} {i : Fin maxProcs} {p : Process}
      (free : s.table.slots i = none) (queue : t.queue = s.table.queue ++ [i.val])
      (slot : t.slots i = some p) (waiting : p.Waiting)
      (context : p.contextSp = initContext p.stackTop)
      (other : ∀ j, j ≠ i → t.slots j = s.table.slots j) :
      Creates s { s with table := t }

/-- What an operation makes of a process in a slot. It leaves it as it is or puts it on a CPU, or it is
the tick of the CPU where the process is current. -/
inductive Alters (s : Sched) (i : Fin maxProcs) (p : Process) : Process → Prop
  | same : Alters s i p p
  | dispatch (cpu : Cpu) : Alters s i p (dispatch cpu p)
  | resume (cpu : Cpu) (frame : ℕ) (current : s.current cpu = i.val) :
      Alters s i p (resume cpu frame p)
  | leave (cpu : Cpu) (frame : ℕ) (current : s.current cpu = i.val) : Alters s i p (leave frame p)

section Alters

variable {s s' : Sched} {cpu : Cpu} {i : Fin maxProcs} {p : Process}

/-- A creation leaves every other process as it is. -/
theorem Creates.alters (h : Creates s s') (hp : s.table.slots i = some p) :
    ∃ p', s'.table.slots i = some p' ∧ Alters s i p p' := by
  cases h with
  | full => exact ⟨p, hp, .same⟩
  | @create t j q hfree hqueue hslot hwait hcontext hother =>
    have hij : i ≠ j := fun e => Option.some_ne_none p (hp.symm.trans (e ▸ hfree))
    exact ⟨p, (hother i hij).trans hp, .same⟩

/-- `start_on_cpu` puts a process on a CPU. -/
theorem Starts.alters (h : Starts cpu s s') (hp : s.table.slots i = some p) :
    ∃ p', s'.table.slots i = some p' ∧ Alters s i p p' := by
  cases h with
  | @start t j q pre post htakes hqueue htaken hother =>
    by_cases hij : i = j
    · subst hij
      rw [htakes.slot] at hp
      cases hp
      exact ⟨_, htaken, .dispatch cpu⟩
    · exact ⟨p, (hother i hij).trans hp, .same⟩

/-- `schedule_from_irq` puts a process on a CPU, and takes off or resumes the one that is there. -/
theorem Schedules.alters {frame r : ℕ} (h : Schedules cpu frame s r s')
    (hp : s.table.slots i = some p) : ∃ p', s'.table.slots i = some p' ∧ Alters s i p p' := by
  cases h with
  | @resume t hpass hqueue hslots =>
    by_cases hcur : s.current cpu = i.val
    · refine ⟨_, (hslots i).trans ?_, .resume cpu frame hcur⟩
      rw [if_pos hcur, hp, Option.map_some]
    · exact ⟨p, ((hslots i).trans (if_neg hcur)).trans hp, .same⟩
  | @switch t j q pre post htakes hqueue htaken hother =>
    by_cases hij : i = j
    · subst hij
      rw [htakes.slot] at hp
      cases hp
      exact ⟨_, htaken, .dispatch cpu⟩
    -- Besides the process that is taken, only the one that leaves the CPU changes.
    by_cases hcur : s.current cpu = i.val
    · refine ⟨_, (hother i hij).trans ?_, .leave cpu frame hcur⟩
      rw [if_pos hcur, hp, Option.map_some]
    · exact ⟨p, ((hother i hij).trans (if_neg hcur)).trans hp, .same⟩

end Alters

/-- What a call of `set_state` did. -/
inductive SetsState (pid : ℕ) (state : ProcessState) (s : Sched) : Sched → Prop
  | missing (target : slotOfPid s.table pid = none) : SetsState pid state s s
  | set {t : ProcessTable} {i : Fin maxProcs} {p : Process}
      (target : slotOfPid s.table pid = some i) (slot : s.table.slots i = some p)
      (queue : t.queue = s.table.queue) (set : t.slots i = some { p with state := state })
      (other : ∀ j, j ≠ i → t.slots j = s.table.slots j) :
      SetsState pid state s { s with table := t }

namespace Placed

variable {s s' : Sched} {cpu : Cpu}

/-- A CPU finds a process to take, or passes over the whole queue. -/
theorem takes (h : Placed s) :
    (∀ x ∈ s.table.queue, Passed s.table x) ∨ ∃ i p pre post, Takes s i p pre post := by
  refine (exists_takeable s.table fun x hx => ?_).imp_right
    fun ⟨pre, post, i, p, hq, hpre, hp, htake⟩ => ⟨i, p, pre, post, hq, hpre, hp, htake⟩
  obtain ⟨i, -, hi, -⟩ := h.queued x hx
  exact ⟨i, hi⟩

/-- `schedule_from_irq` resumes or switches. -/
theorem schedules (h : Placed s) {frame r : ℕ} (hs : scheduleFromIrq cpu frame s = .ok (r, s')) :
    Schedules cpu frame s r s' := by
  rcases h.takes with hpass | ⟨i, p, pre, post, htakes⟩
  · obtain ⟨t, he, hqueue, -, hslots⟩ := scheduleFromIrq_none (h.settled cpu) frame hpass
    rw [he] at hs
    cases hs
    exact .resume hpass hqueue hslots
  · obtain ⟨t, he, hqueue, -, hi, hother⟩ := scheduleFromIrq_some (h.settled cpu) frame
      htakes.queue htakes.passed htakes.slot htakes.takeable
    rw [he] at hs
    cases hs
    exact .switch htakes hqueue hi hother

/-- `start_on_cpu` takes a process. -/
theorem starts (h : Placed s) {r : ℕ × ℕ} (hs : startOnCpu cpu s = .ok (r, s')) :
    Starts cpu s s' := by
  rcases h.takes with hpass | ⟨i, p, pre, post, htakes⟩
  · rw [startOnCpu_none cpu hpass] at hs
    cases hs
  · obtain ⟨t, he, hqueue, -, hi, hother⟩ :=
      startOnCpu_some cpu htakes.queue htakes.passed htakes.slot htakes.takeable
    rw [he] at hs
    cases hs
    exact .start htakes hqueue hi hother

/-- `create_with_mode` fills a free slot. -/
theorem creates (h : Placed s) (env : Env) (name : String) (entry stackTop : ℕ) (mode : ProcessMode)
    (parent : Option ℕ) : Creates s (createWithMode env name entry stackTop mode parent s).2 := by
  match hfree : freeSlot s.table with
  | none =>
    rw [createWithMode_none env name entry stackTop mode parent hfree]
    exact .full
  | some i =>
    have hnone := slots_of_freeSlot hfree
    obtain ⟨p, t, he, -, hqueue, hslot, hwait, -, -, -, -, hcontext, hother⟩ :=
      createWithMode_some env name entry stackTop mode parent hfree (h.length_lt (h.free hnone).1)
    rw [he]
    exact .create hnone hqueue hslot hwait hcontext hother

end Placed

/-- `set_state` changes the state of one process, or nothing. -/
theorem setsState (pid : ℕ) (state : ProcessState) (s : Sched) :
    SetsState pid state s (setState pid state s).2 := by
  match htarget : slotOfPid s.table pid with
  | none =>
    simp only [setState, htarget]
    exact .missing htarget
  | some i =>
    have hany : (s.table.slots i).any (·.id = pid) = true := by
      rw [slotOfPid] at htarget
      simpa using List.find?_some htarget
    obtain ⟨p, hp, -⟩ := (Option.any_eq_true _ _).mp hany
    simp only [setState, htarget, hp, Option.map_some]
    exact .set htarget hp rfl setSlot_slots_self fun j hj => setSlot_slots_of_ne hj

/-! ## The calls keep the invariant -/

namespace Placed

variable {s s' : Sched} {cpu : Cpu}

/-- Processes that keep `running_on` and `in_run_queue`, the queue, and the `CURRENT` indices keep
the invariant. -/
theorem congr (h : Placed s) {t : ProcessTable} (hqueue : t.queue = s.table.queue)
    (hslots : ∀ j, (t.slots j).map (fun p : Process => (p.runningOn, p.inRunQueue)) =
      (s.table.slots j).map fun p : Process => (p.runningOn, p.inRunQueue)) :
    Placed { s with table := t } := by
  -- A process and what became of it agree on the two fields.
  have hto : ∀ {j p}, s.table.slots j = some p → ∃ q, t.slots j = some q ∧
      q.runningOn = p.runningOn ∧ q.inRunQueue = p.inRunQueue := by
    intro j p hp
    have hj := hslots j
    rw [hp, Option.map_some, Option.map_eq_some_iff] at hj
    obtain ⟨q, hq, hqp⟩ := hj
    exact ⟨q, hq, (Prod.mk.inj hqp).1, (Prod.mk.inj hqp).2⟩
  refine ⟨?_, ?_, ?_, ?_⟩
  · show t.queue.Nodup
    rw [hqueue]
    exact h.nodup
  · rintro x (hx : x ∈ t.queue)
    rw [hqueue] at hx
    obtain ⟨j, p, rfl, hp, hmark⟩ := h.queued x hx
    obtain ⟨q, hq, -, hqp⟩ := hto hp
    exact ⟨j, q, rfl, hq, hqp.trans hmark⟩
  · intro c
    refine (h.current c).imp_right fun ⟨k, r, hk, hr, hrun, hmark⟩ => ?_
    obtain ⟨q, hq, hqr, hqm⟩ := hto hr
    exact ⟨k, q, hk, hq, hqr.trans hrun, hqm.trans hmark⟩
  · rintro j q (hq : t.slots j = some q) hnone
    show j.val ∈ t.queue
    have hj := hslots j
    rw [hq, Option.map_some, eq_comm, Option.map_eq_some_iff] at hj
    obtain ⟨p, hp, hpq⟩ := hj
    rw [hqueue]
    exact h.parked j p hp ((Prod.mk.inj hpq).1.trans hnone)

/-- Taking a process from the queue onto a CPU keeps the invariant, if the process that leaves the
CPU is queued or stays marked as running there. -/
theorem put (h : Placed s) {i : Fin maxProcs} {p : Process} {pre post back : List ℕ}
    {t : ProcessTable} (htakes : Takes s i p pre post) (hqueue : t.queue = post ++ pre ++ back)
    (htaken : t.slots i = some (dispatch cpu p))
    (hother : ∀ j, j ≠ i → s.current cpu ≠ j.val → t.slots j = s.table.slots j)
    (hleft : ∀ k r, s.current cpu = k.val → s.table.slots k = some r → ∃ r', t.slots k = some r' ∧
      (r'.inRunQueue = true ∧ back = [k.val] ∨ r'.runningOn = cpu.val ∧ back = []))
    (hback : s.current cpu = invalidIdx → back = []) :
    Placed ⟨t, Function.update s.current cpu i.val, s.initFds⟩ := by
  have hnd := h.nodup
  rw [htakes.queue, List.nodup_middle, List.nodup_cons] at hnd
  have hrest : ∀ {x}, x ∈ post ++ pre ↔ x ∈ s.table.queue ∧ x ≠ i.val :=
    htakes.mem_rest h.nodup
  have hnot := h.not_current htakes.mem
  -- What goes back on the queue is the process that leaves the CPU, marked as queued.
  have hmemback : ∀ {x}, x ∈ back → ∃ k r', x = k.val ∧ s.current cpu = k.val ∧
      t.slots k = some r' ∧ r'.inRunQueue = true := by
    intro x hx
    rcases h.current cpu with hc | ⟨k, r, hk, hr, -⟩
    · rw [hback hc] at hx
      cases hx
    · obtain ⟨r', hr', hcase⟩ := hleft k r hk hr
      rcases hcase with ⟨hmark, rfl⟩ | ⟨-, rfl⟩
      · exact ⟨k, r', List.mem_singleton.mp hx, hk, hr', hmark⟩
      · cases hx
  refine ⟨?_, ?_, ?_, ?_⟩
  · -- It was current, so it was not on the queue.
    show t.queue.Nodup
    rw [hqueue, List.nodup_append]
    refine ⟨(List.perm_append_comm.nodup_iff).mp hnd.2, ?_, ?_⟩
    · rcases h.current cpu with hc | ⟨k, r, hk, hr, -⟩
      · simp [hback hc]
      · obtain ⟨-, -, ⟨-, rfl⟩ | ⟨-, rfl⟩⟩ := hleft k r hk hr <;> simp
    · rintro x hx y hy rfl
      obtain ⟨k, -, rfl, hk, -⟩ := hmemback hy
      exact h.not_current (hrest.mp hx).1 cpu hk
  · rintro x (hx : x ∈ t.queue)
    rw [hqueue, List.mem_append] at hx
    rcases hx with hx | hx
    · obtain ⟨hx, hne⟩ := hrest.mp hx
      obtain ⟨j, q, rfl, hq, hmark⟩ := h.queued x hx
      have hji : j ≠ i := fun e => hne (congrArg _ e)
      exact ⟨j, q, rfl, (hother j hji (h.not_current hx cpu)).trans hq, hmark⟩
    · obtain ⟨k, r', rfl, -, hr', hmark⟩ := hmemback hx
      exact ⟨k, r', rfl, hr', hmark⟩
  · intro c
    by_cases hc : c = cpu
    · subst hc
      exact .inr ⟨i, dispatch c p, Function.update_self .., htaken, rfl, rfl⟩
    · -- Another CPU's process is neither the one taken nor the one that leaves.
      show Function.update s.current cpu i.val c = _ ∨ _
      rw [Function.update_of_ne hc]
      refine (h.current c).imp_right fun ⟨k, r, hk, hr, hrun⟩ => ⟨k, r, ?_, ?_, hrun⟩
      · exact (Function.update_of_ne hc ..).trans hk
      · have hki : k ≠ i := fun e => hnot c (hk.trans (congrArg _ e))
        exact (hother k hki fun e => hc (h.current_inj hk e)).trans hr
  · -- A process that runs nowhere is not the one taken. If it left the CPU it is in `back`.
    rintro j q (hq : t.slots j = some q) hnone
    show j.val ∈ t.queue
    rw [hqueue, List.mem_append]
    by_cases hji : j = i
    · subst hji
      rw [htaken] at hq
      cases hq
      exact absurd hnone (cpu_ne_cpuNone cpu)
    by_cases hcj : s.current cpu = j.val
    · obtain ⟨r, hr⟩ := h.exists_current hcj
      obtain ⟨r', hr', hcase⟩ := hleft j r hcj hr
      rw [hq] at hr'
      cases hr'
      rcases hcase with ⟨-, rfl⟩ | ⟨hrun, -⟩
      · exact .inr (List.mem_singleton.mpr rfl)
      · exact absurd (hrun.symm.trans hnone) (cpu_ne_cpuNone cpu)
    · rw [hother j hji hcj] at hq
      exact .inl (hrest.mpr ⟨h.parked j q hq hnone, fun e => hji (Fin.ext e)⟩)

/-- `create_with_mode` keeps the invariant. -/
theorem create (h : Placed s) (hs : Creates s s') : Placed s' := by
  cases hs with
  | full => exact h
  | @create t i p hfree hqueue hslot hwait hcontext hother =>
    obtain ⟨hmem, hcur⟩ := h.free hfree
    -- The slot was free, so no process is overwritten.
    have hold : ∀ {j q}, s.table.slots j = some q → t.slots j = some q := by
      intro j q hq
      rw [hother j (by rintro rfl; rw [hfree] at hq; cases hq), hq]
    refine ⟨?_, ?_, ?_, ?_⟩
    · show t.queue.Nodup
      rw [hqueue, List.nodup_append]
      refine ⟨h.nodup, List.nodup_singleton _, ?_⟩
      rintro x hx y hy rfl
      exact hmem (List.mem_singleton.mp hy ▸ hx)
    · rintro x (hx : x ∈ t.queue)
      rw [hqueue, List.mem_append, List.mem_singleton] at hx
      rcases hx with hx | rfl
      · obtain ⟨j, q, rfl, hq, hmark⟩ := h.queued x hx
        exact ⟨j, q, rfl, hold hq, hmark⟩
      · exact ⟨i, p, rfl, hslot, hwait.inRunQueue⟩
    · intro c
      exact (h.current c).imp_right fun ⟨k, r, hk, hr, hrun⟩ => ⟨k, r, hk, hold hr, hrun⟩
    · rintro j q (hq : t.slots j = some q) hnone
      show j.val ∈ t.queue
      rw [hqueue, List.mem_append, List.mem_singleton]
      by_cases hji : j = i
      · exact .inr (congrArg _ hji)
      · rw [hother j hji] at hq
        exact .inl (h.parked j q hq hnone)

/-- `schedule_from_irq` keeps the invariant. -/
theorem schedule (h : Placed s) {frame r : ℕ} (hs : Schedules cpu frame s r s') : Placed s' := by
  cases hs with
  | @resume t hpass hqueue hslots =>
    -- `resume` sets the fields to what they are in a current process.
    refine h.congr hqueue fun j => ?_
    rw [hslots]
    split
    next hc =>
      obtain ⟨r, hr⟩ := h.exists_current hc
      obtain ⟨hrun, hmark⟩ := h.of_current hc hr
      simp [hr, resume, hrun, hmark]
    next => rfl
  | @switch t i p pre post htakes hqueue htaken hother =>
    refine h.put htakes hqueue htaken (fun j hj hc => ?_) (fun k r hk hr => ?_) fun hc => ?_
    · rw [hother j hj, if_neg hc]
    · -- The process that leaves goes back on the queue if it is `Running` or `Ready`.
      have hki : k ≠ i := fun e => h.not_current htakes.mem cpu (hk.trans (congrArg _ e))
      obtain ⟨hrun, hmark⟩ := h.of_current hk hr
      refine ⟨leave frame r, ?_, ?_⟩
      · rw [hother k hki, if_pos hk, hr, Option.map_some]
      · have hret : s.returning cpu = if r.Requeues then [k.val] else [] :=
          Sched.Holds.returning ⟨hk, hr, fun hmem => h.not_current hmem cpu hk, fun _ => hmark⟩
        by_cases hrr : r.Requeues
        · refine .inl ⟨?_, by rw [hret, if_pos hrr]⟩
          by_cases hrs : r.state = .running <;> simp [leave, suspend, hrs, hrr]
        · refine .inr ⟨?_, by rw [hret, if_neg hrr]⟩
          rw [leave, if_neg fun e => hrr (.inl e)]
          exact hrun
    · exact Sched.returning_invalid hc

/-- `start_on_cpu` keeps the invariant, whatever its CPU ran before. -/
theorem start (h : Placed s) (hs : Starts cpu s s') : Placed s' := by
  cases hs with
  | @start t i p pre post htakes hqueue htaken hother =>
    have hqueue' : t.queue = post ++ pre ++ [] := by rw [hqueue, List.append_nil]
    refine h.put htakes hqueue' htaken (fun j hj _ => hother j hj) (fun k r hk hr => ?_)
      fun _ => rfl
    have hki : k ≠ i := fun e => h.not_current htakes.mem cpu (hk.trans (congrArg _ e))
    exact ⟨r, (hother k hki).trans hr, .inr ⟨(h.of_current hk hr).1, rfl⟩⟩

/-- `set_state` keeps the invariant. -/
theorem setState (h : Placed s) {pid : ℕ} {state : ProcessState}
    (hs : SetsState pid state s s') : Placed s' := by
  cases hs with
  | missing => exact h
  | @set t i p htarget hslot hqueue hset hother =>
    refine h.congr hqueue fun j => ?_
    by_cases hji : j = i
    · rw [hji, hset, hslot]
      rfl
    · rw [hother j hji]

/-- Every operation keeps the invariant. -/
theorem op (h : Placed s) {env : Env} {o : Op} (hs : o.Step env s s') : Placed s' := by
  cases o with
  | create name entry stackTop mode parent =>
    cases hs
    exact h.create (h.creates env name entry stackTop mode parent)
  | start cpu =>
    obtain ⟨⟨r, s''⟩, hr, hs'⟩ := Exec.bind_eq_ok.mp hs
    cases hs'
    exact h.start (h.starts hr)
  | schedule cpu frame =>
    obtain ⟨⟨r, s''⟩, hr, hs'⟩ := Exec.bind_eq_ok.mp hs
    cases hs'
    exact h.schedule (h.schedules hr)

/-- What an operation makes of a process in a slot, which keeps it. -/
theorem alters (h : Placed s) {env : Env} {o : Op} (hs : o.Step env s s') {i : Fin maxProcs}
    {p : Process} (hp : s.table.slots i = some p) :
    ∃ p', s'.table.slots i = some p' ∧ Alters s i p p' := by
  cases o with
  | create name entry stackTop mode parent =>
    cases hs
    exact (h.creates env name entry stackTop mode parent).alters hp
  | start cpu =>
    obtain ⟨⟨r, s''⟩, hr, hs'⟩ := Exec.bind_eq_ok.mp hs
    cases hs'
    exact (h.starts hr).alters hp
  | schedule cpu frame =>
    obtain ⟨⟨r, s''⟩, hr, hs'⟩ := Exec.bind_eq_ok.mp hs
    cases hs'
    exact (h.schedules hr).alters hp

/-- Every call keeps the invariant. -/
theorem call (h : Placed s) {env : Env} {c : Call} (hs : c.Step env s s') : Placed s' := by
  cases c with
  | op o => exact h.op hs
  | setState pid state =>
    cases hs
    exact h.setState (setsState pid state s)

end Placed

end Ralix.Kernel
