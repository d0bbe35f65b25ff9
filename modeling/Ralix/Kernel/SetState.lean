import Ralix.Kernel.Calls

/-!
# What `set_state` leads to

`set_state` writes `state` alone, so a process can be `Ready` while `running_on` still names the CPU
that it has left, or `Blocked` while a CPU runs it. The scheduler meets such a process in two places.
A process that is stranded, current nowhere and marked as running somewhere, is not on the queue, and
nothing puts it there: `readyQueued_iff` says which calls leave a `Ready` process so, and that no
others do. And a CPU that finds nothing to take goes back to its current process, whatever the state
of that is: `lawful_iff` says that this is the only way to run a process that is not to run.
-/

namespace Ralix.Kernel

open Lib ProcessTable

/-- Every `Ready` process that is current nowhere runs nowhere and is on the queue once. -/
def Sched.ReadyQueued (s : Sched) : Prop :=
  ∀ (i : Fin maxProcs) (p : Process), s.table.slots i = some p → p.state = .ready →
    (∀ c, s.current c ≠ i.val) → p.runningOn = cpuNone ∧ s.table.queue.count i.val = 1

/-- Some queued process may be taken. -/
def Sched.HasTakeable (s : Sched) : Prop :=
  ∃ i : Fin maxProcs, i.val ∈ s.table.queue ∧ takeable (s.table.slots i) = true

/-- The condition for a call to keep `ReadyQueued`. No CPU takes another process while its current
one is `Ready`, and no process is made `Ready` that a CPU has left with `running_on` set. -/
def Call.KeepsReady (s : Sched) : Call → Prop
  | op (.create ..) => True
  | op (.start cpu) => ∀ r, s.currentProcess cpu = some r → r.state ≠ .ready
  | op (.schedule cpu _) =>
    s.HasTakeable → ∀ r, s.currentProcess cpu = some r → r.state ≠ .ready
  | setState pid state => state = .ready → ∀ i p, slotOfPid s.table pid = some i →
    s.table.slots i = some p → p.runningOn = cpuNone ∨ ∃ c, s.current c = i.val

/-- A process that is not to run. -/
def Process.Stopped (p : Process) : Prop := p.state = .blocked ∨ p.state = .terminated

instance (p : Process) : Decidable p.Stopped := inferInstanceAs (Decidable (_ ∨ _))

/-- The CPU that a call of the scheduler runs on. -/
def Call.cpu : Call → Option Cpu
  | op (.start cpu) | op (.schedule cpu _) => some cpu
  | _ => none

/-- A call of the scheduler neither puts a process that was not to run into `Running` nor leaves it
as the current process of its CPU. -/
def Lawful (x : Transition Sched Call) : Prop :=
  ∀ cpu, x.act.cpu = some cpu → ∀ (i : Fin maxProcs) (p : Process),
    x.pre.table.slots i = some p → p.Stopped →
      (∀ q, x.post.table.slots i = some q → q.state ≠ .running) ∧ x.post.current cpu ≠ i.val

/-- The condition for a call to be lawful: a CPU whose current process is not to run finds another
one to take. -/
def Call.Replaces (s : Sched) : Call → Prop
  | op (.schedule cpu _) => s.HasTakeable ∨ ∀ r, s.currentProcess cpu = some r → ¬ r.Stopped
  | _ => True

/-! ## The queue and its takeable processes -/

/-- A queue that is passed over has nothing to take. -/
theorem not_hasTakeable {s : Sched} (h : ∀ x ∈ s.table.queue, Passed s.table x) :
    ¬ s.HasTakeable := by
  rintro ⟨i, hmem, htake⟩
  obtain ⟨j, hj, hpass⟩ := h i.val hmem
  rw [← Fin.ext hj, htake] at hpass
  cases hpass

/-- A process that is taken was there to take. -/
theorem Takes.hasTakeable {s : Sched} {i : Fin maxProcs} {p : Process} {pre post : List ℕ}
    (h : Takes s i p pre post) : s.HasTakeable := by
  refine ⟨i, h.mem, ?_⟩
  rw [h.slot]
  exact h.takeable

namespace Placed

variable {s s' : Sched} {cpu : Cpu}

/-- A process that is current on a CPU has a slot. -/
theorem exists_slot (h : Placed s) {r : Process} (hr : s.currentProcess cpu = some r) :
    ∃ k : Fin maxProcs, s.current cpu = k.val := by
  rcases h.current cpu with hc | ⟨k, -, hk, -⟩
  · rw [Sched.currentProcess_invalid hc] at hr
    cases hr
  · exact ⟨k, hk⟩

/-- Under the invariant, `ReadyQueued` is about `running_on` alone. -/
theorem readyQueued (h : Placed s) : s.ReadyQueued ↔ ∀ (i : Fin maxProcs) (p : Process),
    s.table.slots i = some p → p.state = .ready → (∀ c, s.current c ≠ i.val) →
      p.runningOn = cpuNone := by
  refine forall₅_congr fun i p hp _ _ => and_iff_left_of_imp fun hnone => ?_
  exact List.count_eq_one_of_mem h.nodup (h.parked i p hp hnone)

/-- When a CPU takes a process, `ReadyQueued` turns on what becomes of the one that it ran. -/
theorem readyQueued_put (h : Placed s) (h' : Placed s') (hq : s.ReadyQueued) {i : Fin maxProcs}
    {p : Process} {pre post : List ℕ} (htakes : Takes s i p pre post) {f : Process → Process}
    (hcur : s'.current = Function.update s.current cpu i.val)
    (hother : ∀ j, j ≠ i → s'.table.slots j = if s.current cpu = j.val
      then (s.table.slots j).map f else s.table.slots j) :
    s'.ReadyQueued ↔ ∀ r, s.currentProcess cpu = some r →
      (f r).state = .ready → (f r).runningOn = cpuNone := by
  rw [h'.readyQueued]
  have hnot := h.not_current htakes.mem cpu
  constructor
  · intro hall r hr hready
    obtain ⟨k, hk⟩ := h.exists_slot hr
    rw [Sched.currentProcess_val hk] at hr
    have hki : k ≠ i := fun e => hnot (hk.trans (congrArg _ e))
    have hslot : s'.table.slots k = some (f r) := by
      rw [hother k hki, if_pos hk, hr, Option.map_some]
    refine hall k (f r) hslot hready fun c hc => ?_
    -- No other CPU ran the process, and this one has left it.
    rw [hcur] at hc
    by_cases hcc : c = cpu
    · rw [hcc, Function.update_self] at hc
      exact hki (Fin.ext hc.symm)
    · rw [Function.update_of_ne hcc] at hc
      exact hcc (h.current_inj hc hk)
  · intro hf j q hqj hready hfree
    by_cases hji : j = i
    · exact absurd (by rw [hcur, Function.update_self, hji]) (hfree cpu)
    rw [hother j hji] at hqj
    by_cases hcj : s.current cpu = j.val
    · obtain ⟨r, hr⟩ := h.exists_current hcj
      rw [if_pos hcj, hr, Option.map_some] at hqj
      cases hqj
      exact hf r ((Sched.currentProcess_val hcj).trans hr) hready
    · rw [if_neg hcj] at hqj
      refine (hq j q hqj hready fun c hc => ?_).1
      have hcc : c ≠ cpu := by
        rintro rfl
        exact hcj hc
      refine hfree c ?_
      rw [hcur, Function.update_of_ne hcc, hc]

/-- A process that leaves its CPU for another goes astray if it was `Ready`. -/
theorem leave_ready (h : Placed s) {r : Process} (hr : s.currentProcess cpu = some r)
    (frame : ℕ) : ((leave frame r).state = .ready → (leave frame r).runningOn = cpuNone) ↔
      r.state ≠ .ready := by
  have hrun : r.runningOn = cpu.val := by
    obtain ⟨k, hk⟩ := h.exists_slot hr
    exact (h.of_current hk (Sched.currentProcess_val hk ▸ hr)).1
  by_cases hs : r.state = .running
  · simp [leave, suspend, hs]
  · simp [leave, hs, hrun, cpu_ne_cpuNone]

/-- `create_with_mode` keeps `ReadyQueued`. -/
theorem readyQueued_create (h : Placed s) (hq : s.ReadyQueued) (hs : Creates s s') :
    s'.ReadyQueued := by
  rw [(h.create hs).readyQueued]
  rw [h.readyQueued] at hq
  cases hs with
  | full => exact hq
  | @create t i p hfree hqueue hslot hwait hcontext hother =>
    rintro j q (hqj : t.slots j = some q) hready hcur
    by_cases hji : j = i
    · rw [hji, hslot] at hqj
      cases hqj
      exact hwait.runningOn
    · rw [hother j hji] at hqj
      exact hq j q hqj hready hcur

/-- `start_on_cpu` loses the CPU's current process if that is `Ready`. -/
theorem readyQueued_start (h : Placed s) (hq : s.ReadyQueued) (hs : Starts cpu s s') :
    s'.ReadyQueued ↔ ∀ r, s.currentProcess cpu = some r → r.state ≠ .ready := by
  have h' := h.start hs
  cases hs with
  | @start t i p pre post htakes hqueue htaken hother =>
    rw [h.readyQueued_put (f := id) h' hq htakes rfl fun j hj => by
      rw [Option.map_id, id, ite_self]
      exact hother j hj]
    refine forall₂_congr fun r hr => ?_
    obtain ⟨k, hk⟩ := h.exists_slot hr
    have hrun := (h.of_current hk (Sched.currentProcess_val hk ▸ hr)).1
    simp [hrun, cpu_ne_cpuNone]

/-- `schedule_from_irq` loses the interrupted process if that is `Ready` and there is another to
take. -/
theorem readyQueued_schedule (h : Placed s) (hq : s.ReadyQueued) {frame r : ℕ}
    (hs : Schedules cpu frame s r s') : s'.ReadyQueued ↔
      (s.HasTakeable → ∀ r, s.currentProcess cpu = some r → r.state ≠ .ready) := by
  have h' := h.schedule hs
  cases hs with
  | @resume t hpass hqueue hslots =>
    refine iff_of_true ?_ fun htake => absurd htake (not_hasTakeable hpass)
    rw [h'.readyQueued]
    rintro j q (hqj : t.slots j = some q) hready hcur
    rw [hslots, if_neg (hcur cpu)] at hqj
    exact h.readyQueued.mp hq j q hqj hready hcur
  | @switch t i p pre post htakes hqueue htaken hother =>
    rw [h.readyQueued_put h' hq htakes rfl hother, forall_prop_of_true htakes.hasTakeable]
    exact forall₂_congr fun r hr => h.leave_ready hr frame

/-- `set_state` loses a process that it makes `Ready` after a CPU has left it. -/
theorem readyQueued_setState (h : Placed s) (hq : s.ReadyQueued) {pid : ℕ} {state : ProcessState}
    (hs : SetsState pid state s s') : s'.ReadyQueued ↔
      (state = .ready → ∀ i p, slotOfPid s.table pid = some i → s.table.slots i = some p →
        p.runningOn = cpuNone ∨ ∃ c, s.current c = i.val) := by
  rw [(h.setState hs).readyQueued]
  rw [h.readyQueued] at hq
  cases hs with
  | missing hmissing =>
    refine iff_of_true hq fun _ i p htarget => ?_
    rw [hmissing] at htarget
    cases htarget
  | @set t i p htarget hslot hqueue hset hother =>
    constructor
    · intro hall hstate j q hj hqj
      rw [htarget, Option.some.injEq] at hj
      subst hj
      rw [hslot] at hqj
      cases hqj
      -- a process that a CPU has current needs no place in the queue
      by_cases hcur : ∃ c, s.current c = i.val
      · exact .inr hcur
      · exact .inl (hall i { p with state := state } hset hstate fun c hc => hcur ⟨c, hc⟩)
    · rintro hok j q (hqj : t.slots j = some q) hready hcur
      by_cases hji : j = i
      · subst hji
        rw [hset] at hqj
        cases hqj
        exact (hok hready j p htarget hslot).resolve_right fun ⟨c, hc⟩ => hcur c hc
      · rw [hother j hji] at hqj
        exact hq j q hqj hready hcur

/-- A call keeps `ReadyQueued` exactly under `KeepsReady`. -/
theorem keepsReady (h : Placed s) (hq : s.ReadyQueued) {env : Env} {c : Call}
    (hs : c.Step env s s') : s'.ReadyQueued ↔ c.KeepsReady s := by
  cases c with
  | setState pid state =>
    cases hs
    exact h.readyQueued_setState hq (setsState pid state s)
  | op o =>
    cases o with
    | create name entry stackTop mode parent =>
      cases hs
      exact iff_of_true (h.readyQueued_create hq (h.creates env name entry stackTop mode parent))
        trivial
    | start cpu =>
      obtain ⟨⟨r, s''⟩, hr, hs'⟩ := Exec.bind_eq_ok.mp hs
      cases hs'
      exact h.readyQueued_start hq (h.starts hr)
    | schedule cpu frame =>
      obtain ⟨⟨r, s''⟩, hr, hs'⟩ := Exec.bind_eq_ok.mp hs
      cases hs'
      exact h.readyQueued_schedule hq (h.schedules hr)

end Placed

/-- No process is ready after `process::init`. -/
theorem readyQueued_init : init.ReadyQueued := by
  intro i p hp
  cases hp

/-- In a run of calls, every `Ready` process that is current nowhere runs nowhere and is queued once,
in every state, exactly if no CPU takes another process while its current one is `Ready` and no
process is made `Ready` that a CPU has left with `running_on` set. -/
theorem readyQueued_iff (env : Env) (ts : List (Transition Sched Call)) (s : Sched)
    (h : Trace init (Call.Step env) ts s) :
    (∀ t ∈ reached init ts, t.ReadyQueued) ↔ ∀ x ∈ ts, x.act.KeepsReady x.pre :=
  h.always_iff Placed.init (fun _ _ _ hp hs => hp.call hs) readyQueued_init
    fun _ _ _ hp hq hs => hp.keepsReady hq hs

/-- The creation of the first process. -/
def creation : Transition Sched Call where
  pre := init
  act := .op (.create "a" 0 0 .user none)
  post := (createWithMode sampleEnv "a" 0 0 .user none init).2

/-- The creation of a process is a run. -/
theorem trace_creation : Trace init (Call.Step sampleEnv) [creation] creation.post :=
  .cons .nil rfl

/-- `readyQueued_iff` for the creation of a process. -/
theorem readyQueued_iff_creation : creation.post.ReadyQueued :=
  (readyQueued_iff sampleEnv _ _ trace_creation).mpr (by simp [creation, Call.KeepsReady]) _
    trace_creation.end_mem_reached

/-- Whether a slot's process is `Ready`, current nowhere, and marked as running somewhere. -/
def Sched.lost (s : Sched) (i : Fin maxProcs) : Bool :=
  match s.table.slots i with
  | some p => p.state = .ready ∧ p.runningOn ≠ cpuNone ∧ ∀ c, s.current c ≠ i.val
  | none => false

/-- A lost process is none that `ReadyQueued` allows. -/
theorem Sched.not_readyQueued_of_lost {s : Sched} {i : Fin maxProcs} (h : s.lost i = true) :
    ¬ s.ReadyQueued := by
  intro hq
  rw [lost] at h
  split at h
  next p hp =>
    obtain ⟨hready, hon, hcur⟩ := of_decide_eq_true h
    exact hon (hq i p hp hready hcur).1
  next => cases h

/-- A process is blocked while it runs, and woken after its CPU has gone on to another. -/
def wake : List Call :=
  [.op (.create "a" 0 0 .user none), .op (.create "b" 0 0 .user none), .op (.start 0),
    .setState 1 .blocked, .op (.schedule 0 0x1000), .setState 1 .ready]

/-- After `wake`, the process is lost. -/
theorem replay_wake :
    (replay (Call.run sampleEnv) wake [] init >>= fun x => pure (x.2.lost 0)) = .ok true := by
  decide +kernel

/-- A `Ready` process can be lost to the scheduler. -/
theorem not_readyQueued : ¬ ∀ ts s, Trace init (Call.Step sampleEnv) ts s →
    ∀ t ∈ reached init ts, t.ReadyQueued := by
  intro hall
  obtain ⟨⟨ts, s⟩, hrun, hlost⟩ := Exec.bind_eq_ok.mp replay_wake
  have htrace : Trace init (Call.Step sampleEnv) ts s := Trace.of_replay .nil hrun
  rw [Exec.pure_eq, Except.ok.injEq] at hlost
  exact Sched.not_readyQueued_of_lost hlost (hall ts s htrace s htrace.end_mem_reached)

/-! ## The processes that are not to run -/

/-- What a call of the scheduler on a CPU does to the processes that are not to run. -/
def Spares (cpu : Cpu) (s s' : Sched) : Prop :=
  ∀ (i : Fin maxProcs) (p : Process), s.table.slots i = some p → p.Stopped →
    (∀ q, s'.table.slots i = some q → q.state ≠ .running) ∧ s'.current cpu ≠ i.val

/-- A process that is not to run is neither `Running` nor `Ready`. -/
theorem Process.Stopped.ne {p : Process} (h : p.Stopped) : p.state ≠ .running ∧ p.state ≠ .ready := by
  rcases h with h | h <;> simp [h]

/-- A process that is not to run stays so when it leaves its CPU. -/
theorem Process.Stopped.leave {p : Process} (h : p.Stopped) (frame : ℕ) :
    (leave frame p).state ≠ .running := by
  simp [Kernel.leave, h.ne.1]

namespace Placed

variable {s s' : Sched} {cpu : Cpu}

/-- Taking a process spares the processes that are not to run. -/
theorem spares_put {i : Fin maxProcs} {p : Process} {pre post : List ℕ}
    (htakes : Takes s i p pre post) (hcur : s'.current cpu = i.val)
    (hother : ∀ j, j ≠ i → ∀ q, s.table.slots j = some q → q.Stopped →
      ∀ q', s'.table.slots j = some q' → q'.state ≠ .running) : Spares cpu s s' := by
  intro j q hq hstop
  have hji : j ≠ i := by
    rintro rfl
    rw [htakes.slot] at hq
    cases hq
    exact hstop.ne.2 htakes.ready.1
  refine ⟨hother j hji q hq hstop, ?_⟩
  rw [hcur]
  exact fun e => hji (Fin.ext e.symm)

/-- `start_on_cpu` spares them. -/
theorem spares_start (hs : Starts cpu s s') : Spares cpu s s' := by
  cases hs with
  | @start t i p pre post htakes hqueue htaken hother =>
    refine spares_put htakes (Function.update_self ..) fun j hj q hq hstop q' hq' => ?_
    rw [show t.slots j = some q from (hother j hj).trans hq, Option.some.injEq] at hq'
    exact hq' ▸ hstop.ne.1

/-- `schedule_from_irq` spares them exactly if it has another process to take, or the interrupted
process may go on. -/
theorem spares_schedule (h : Placed s) {frame r : ℕ} (hs : Schedules cpu frame s r s') :
    Spares cpu s s' ↔ s.HasTakeable ∨ ∀ r, s.currentProcess cpu = some r → ¬ r.Stopped := by
  cases hs with
  | @resume t hpass hqueue hslots =>
    -- with nothing to take, the current process is made running again
    rw [or_iff_right (not_hasTakeable hpass)]
    constructor
    · intro hspares r hr hstop
      obtain ⟨k, hk⟩ := h.exists_slot hr
      rw [Sched.currentProcess_val hk] at hr
      exact (hspares k r hr hstop).2 hk
    · intro hgo j q hq hstop
      have hcj : s.current cpu ≠ j.val := fun e =>
        hgo q ((Sched.currentProcess_val e).trans hq) hstop
      refine ⟨fun q' (hq' : t.slots j = some q') => ?_, hcj⟩
      rw [hslots, if_neg hcj, hq, Option.some.injEq] at hq'
      exact hq' ▸ hstop.ne.1
  | @switch t i p pre post htakes hqueue htaken hother =>
    refine iff_of_true ?_ (.inl htakes.hasTakeable)
    refine spares_put htakes (Function.update_self ..) fun j hj q hq hstop q' hq' => ?_
    rw [show t.slots j = _ from hother j hj, hq] at hq'
    split at hq'
    next =>
      rw [Option.map_some, Option.some.injEq] at hq'
      exact hq' ▸ hstop.leave frame
    next =>
      rw [Option.some.injEq] at hq'
      exact hq' ▸ hstop.ne.1

/-- A call is lawful exactly under `Replaces`. -/
theorem lawful (h : Placed s) {env : Env} {c : Call} (hs : c.Step env s s') :
    Lawful ⟨s, c, s'⟩ ↔ c.Replaces s := by
  cases c with
  | setState pid state => exact iff_of_true (fun _ hc => nomatch hc) trivial
  | op o =>
    cases o with
    | create name entry stackTop mode parent => exact iff_of_true (fun _ hc => nomatch hc) trivial
    | start cpu =>
      obtain ⟨⟨r, s''⟩, hr, hs'⟩ := Exec.bind_eq_ok.mp hs
      cases hs'
      refine iff_of_true (fun c hc => ?_) trivial
      cases hc
      exact spares_start (h.starts hr)
    | schedule cpu frame =>
      obtain ⟨⟨r, s''⟩, hr, hs'⟩ := Exec.bind_eq_ok.mp hs
      cases hs'
      rw [show (Call.op (.schedule cpu frame)).Replaces s ↔ _ from
        (h.spares_schedule (h.schedules hr)).symm]
      refine ⟨fun hlaw => hlaw cpu rfl, fun hspares c hc => ?_⟩
      cases hc
      exact hspares

end Placed

/-- In a run of calls, no call of the scheduler puts a process that was not to run into `Running` or
leaves it on its CPU, exactly if each `schedule_from_irq` that interrupts such a process finds
another one to take. -/
theorem lawful_iff (env : Env) (ts : List (Transition Sched Call)) (s : Sched)
    (h : Trace init (Call.Step env) ts s) :
    (∀ x ∈ ts, Lawful x) ↔ ∀ x ∈ ts, x.act.Replaces x.pre := by
  refine forall₂_congr fun x hx => ?_
  obtain ⟨hplaced, hstep⟩ := h.of_mem Placed.init (fun _ _ _ hp hs => hp.call hs) x hx
  exact hplaced.lawful hstep

/-- `lawful_iff` for the creation of a process. -/
theorem lawful_iff_creation : Lawful creation :=
  (lawful_iff sampleEnv _ _ trace_creation).mpr (by simp [creation, Call.Replaces]) _
    (List.mem_singleton_self _)

/-- The one process of a run is blocked while it runs. -/
def block : List Call :=
  [.op (.create "a" 0 0 .user none), .op (.start 0), .setState 1 .blocked]

/-- After `block`, the process of CPU 0 is not to run, and nothing is queued. -/
theorem replay_block : (replay (Call.run sampleEnv) block [] init >>= fun x =>
    pure (decide (x.2.current 0 = 0), (x.2.table.slots 0).any fun p => decide p.Stopped,
      decide (x.2.table.queue = []))) = .ok (true, true, true) := by
  decide +kernel

/-- The timer can bring a process that is not to run back to `Running`. -/
theorem not_lawful : ¬ ∀ ts s, Trace init (Call.Step sampleEnv) ts s → ∀ x ∈ ts, Lawful x := by
  intro hall
  obtain ⟨⟨ts, s⟩, hrun, hs⟩ := Exec.bind_eq_ok.mp replay_block
  have htrace : Trace init (Call.Step sampleEnv) ts s := Trace.of_replay .nil hrun
  simp only [Exec.pure_eq, Except.ok.injEq, Prod.mk.injEq, decide_eq_true_eq,
    Option.any_eq_true] at hs
  obtain ⟨hcur, ⟨p, hp, hstop⟩, hqueue⟩ := hs
  have hplaced : Placed s := htrace.inv Placed.init fun _ _ _ hp hs => hp.call hs
  -- The next tick finds the queue empty and goes back to the process.
  obtain ⟨t, hsched, -⟩ :=
    scheduleFromIrq_none (hplaced.settled 0) 0x1000 (by simp [hqueue])
  have htick : Call.Step sampleEnv s (.op (.schedule 0 0x1000)) { s with table := t } := by
    simp [Call.Step, Call.run, Op.run, hsched]
  have hlaw := hall _ _ (htrace.cons htick) _ List.mem_cons_self 0 rfl 0 p hp hstop
  exact hlaw.2 hcur

end Ralix.Kernel
