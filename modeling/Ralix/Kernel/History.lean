import Ralix.Kernel.Calls

/-!
# The frame that a process is resumed with

A process that was taken off a CPU comes back with the frame that `schedule_from_irq` was given then,
on whichever CPU that was and wherever the process runs next. This is about the past of a run, so the
invariant `Recorded` relates a state to the steps that led to it: what `context_sp` of a queued
process holds is the frame of its last preemption, or the initial frame if there was none.
`switch_resumes` is what follows for the frame that `schedule_from_irq` returns.
-/

namespace Ralix.Kernel

open Lib ProcessTable

/-- The frame of a preemption of the process in a slot: the process was current on a CPU when
`schedule_from_irq` was called there, and another one is afterwards. -/
def preemptionOf (i : Fin maxProcs) (x : Transition Sched Op) : Option ℕ :=
  match x.act with
  | .schedule cpu frame =>
    if x.pre.current cpu = i.val ∧ x.post.current cpu ≠ i.val then some frame else none
  | _ => none

/-- The frame of the last preemption of the process in a slot. -/
def lastPreemption (i : Fin maxProcs) (ts : List (Transition Sched Op)) : Option ℕ :=
  ts.findSome? (preemptionOf i)

/-- A step that was no preemption of a process leaves its last one as it was. -/
theorem lastPreemption_cons {i : Fin maxProcs} {x : Transition Sched Op}
    {ts : List (Transition Sched Op)} (h : preemptionOf i x = none) :
    lastPreemption i (x :: ts) = lastPreemption i ts := by
  simp [lastPreemption, h]

/-- A preemption of a process is its last one. -/
theorem lastPreemption_cons_some {i : Fin maxProcs} {x : Transition Sched Op}
    {ts : List (Transition Sched Op)} {frame : ℕ} (h : preemptionOf i x = some frame) :
    lastPreemption i (x :: ts) = some frame := by
  simp [lastPreemption, h]

/-- A call of `schedule_from_irq` preempts no process but the current one. -/
theorem preemptionOf_of_ne {i : Fin maxProcs} {cpu : Cpu} {frame : ℕ} {s s' : Sched}
    (h : s.current cpu ≠ i.val) : preemptionOf i ⟨s, .schedule cpu frame, s'⟩ = none :=
  if_neg fun hc => h hc.1

/-- A process that is current before a call of `schedule_from_irq` and not after it is preempted. -/
theorem preemptionOf_of_left {i : Fin maxProcs} {cpu : Cpu} {frame : ℕ} {s s' : Sched}
    (h : s.current cpu = i.val) (h' : s'.current cpu ≠ i.val) :
    preemptionOf i ⟨s, .schedule cpu frame, s'⟩ = some frame :=
  if_pos ⟨h, h'⟩

/-- How the state of a run and the steps that led to it agree. -/
structure Recorded (ts : List (Transition Sched Op)) (s : Sched) : Prop where
  placed : Placed s
  /-- A process that is current on a CPU is `Running`. -/
  running : ∀ c (k : Fin maxProcs) (r : Process), s.current c = k.val →
    s.table.slots k = some r → r.state = .running
  /-- A queued process was left with the frame of its last preemption, or still has its first. -/
  saved : ∀ (i : Fin maxProcs) (p : Process), i.val ∈ s.table.queue → s.table.slots i = some p →
    p.contextSp = (lastPreemption i ts).getD (initContext p.stackTop)
  /-- A process that does not exist was not preempted. -/
  fresh : ∀ i, s.table.slots i = none → lastPreemption i ts = none

/-- A slot with a process is not one without. -/
theorem ne_of_slots {t : ProcessTable} {i j : Fin maxProcs} {p : Process}
    (hi : t.slots i = some p) (hj : t.slots j = none) : j ≠ i := by
  rintro rfl
  rw [hj] at hi
  cases hi

namespace Recorded

variable {ts : List (Transition Sched Op)} {s s' : Sched}

/-- The state after `process::init`. -/
theorem init : Recorded [] init where
  placed := Placed.init
  running _ _ _ _ hr := by cases hr
  saved _ _ _ hp := by cases hp
  fresh _ _ := rfl

/-- A new process has its first frame. -/
theorem create (h : Recorded ts s) (hs : Creates s s') {name : String} {entry stackTop : ℕ}
    {mode : ProcessMode} {parent : Option ℕ} :
    Recorded (⟨s, .create name entry stackTop mode parent, s'⟩ :: ts) s' := by
  have hplaced := h.placed.create hs
  have hlast : ∀ i, lastPreemption i (⟨s, .create name entry stackTop mode parent, s'⟩ :: ts) =
      lastPreemption i ts := fun i => lastPreemption_cons rfl
  cases hs with
  | full => exact ⟨hplaced, h.running, by simpa only [hlast] using h.saved,
      by simpa only [hlast] using h.fresh⟩
  | @create t i p hfree hqueue hslot hwait hcontext hother =>
    obtain ⟨hmem, hcur⟩ := h.placed.free hfree
    refine ⟨hplaced, fun c k r hk hr => ?_, ?_, fun j hj => ?_⟩
    · have hki : k ≠ i := fun e => hcur c (hk.trans (congrArg _ e))
      exact h.running c k r hk ((hother k hki).symm.trans hr)
    · -- The new process has its first frame, and has never been preempted.
      rintro j q (hj : j.val ∈ t.queue) (hq : t.slots j = some q)
      rw [hlast]
      by_cases hji : j = i
      · subst hji
        rw [hslot] at hq
        cases hq
        rw [h.fresh j hfree, Option.getD_none, hcontext]
      · rw [hqueue, List.mem_append, List.mem_singleton] at hj
        rw [hother j hji] at hq
        exact h.saved j q (hj.resolve_right fun e => hji (Fin.ext e)) hq
    · rw [hlast]
      have hji : j ≠ i := ne_of_slots hslot hj
      exact h.fresh j ((hother j hji).symm.trans hj)

/-- A process that a CPU takes is current there and no longer queued. -/
theorem taken {cpu : Cpu} {t : ProcessTable} {i : Fin maxProcs} {p : Process} (h : Recorded ts s)
    (htaken : t.slots i = some (dispatch cpu p))
    (hother : ∀ j, j ≠ i → s.current cpu ≠ j.val → t.slots j = s.table.slots j) (c : Cpu)
    (k : Fin maxProcs) (r : Process) (hk : Function.update s.current cpu i.val c = k.val)
    (hr : t.slots k = some r) : r.state = .running := by
  by_cases hc : c = cpu
  · rw [hc, Function.update_self] at hk
    rw [← Fin.ext hk, htaken] at hr
    cases hr
    rfl
  · rw [Function.update_of_ne hc] at hk
    by_cases hki : k = i
    · rw [hki, htaken] at hr
      cases hr
      rfl
    · have hcpu : s.current cpu ≠ k.val := fun e => hc (h.placed.current_inj hk e)
      exact h.running c k r hk ((hother k hki hcpu).symm.trans hr)

/-- `start_on_cpu` preempts no process. -/
theorem start (h : Recorded ts s) {cpu : Cpu} (hs : Starts cpu s s') :
    Recorded (⟨s, .start cpu, s'⟩ :: ts) s' := by
  have hplaced := h.placed.start hs
  have hlast : ∀ i, lastPreemption i (⟨s, .start cpu, s'⟩ :: ts) = lastPreemption i ts :=
    fun i => lastPreemption_cons rfl
  have hnd := h.placed.nodup
  cases hs with
  | @start t i p pre post htakes hqueue htaken hother =>
    refine ⟨hplaced, h.taken htaken fun j hj _ => hother j hj, ?_, fun j hj => ?_⟩
    · rintro j q (hj : j.val ∈ t.queue) (hq : t.slots j = some q)
      rw [hqueue, htakes.mem_rest hnd] at hj
      rw [hlast]
      exact h.saved j q hj.1 ((hother j fun e => hj.2 (congrArg _ e)).symm.trans hq)
    · rw [hlast]
      have hji : j ≠ i := ne_of_slots htaken hj
      exact h.fresh j ((hother j hji).symm.trans hj)

/-- `schedule_from_irq` saves the frame of the process that it preempts. -/
theorem schedule (h : Recorded ts s) {cpu : Cpu} {frame r : ℕ} (hs : Schedules cpu frame s r s') :
    Recorded (⟨s, .schedule cpu frame, s'⟩ :: ts) s' := by
  have hplaced := h.placed.schedule hs
  have hnd := h.placed.nodup
  cases hs with
  | @resume t hpass hqueue hslots =>
    -- The current process stays where it is, so there is no preemption.
    have hlast : ∀ i, lastPreemption i
        (⟨s, .schedule cpu frame, { s with table := t }⟩ :: ts) = lastPreemption i ts :=
      fun i => lastPreemption_cons (if_neg fun hc => hc.2 hc.1)
    refine ⟨hplaced, ?_, ?_, fun j hj => ?_⟩
    · rintro c k q hk (hq : t.slots k = some q)
      rw [hslots] at hq
      split at hq
      next hc =>
        obtain ⟨q', -, rfl⟩ := Option.map_eq_some_iff.mp hq
        rfl
      next => exact h.running c k q hk hq
    · rintro j q (hj : j.val ∈ t.queue) (hq : t.slots j = some q)
      rw [hqueue] at hj
      rw [hslots, if_neg (h.placed.not_current hj cpu)] at hq
      rw [hlast]
      exact h.saved j q hj hq
    · rw [hlast]
      refine h.fresh j ?_
      have hj' : t.slots j = none := hj
      rw [hslots] at hj'
      split at hj'
      next => exact Option.map_eq_none_iff.mp hj'
      next => exact hj'
  | @switch t i p pre post htakes hqueue htaken hother =>
    refine ⟨hplaced, h.taken htaken fun j hj hc => ?_, ?_, fun j hj => ?_⟩
    · rw [hother j hj, if_neg hc]
    · rintro j q (hj : j.val ∈ t.queue) (hq : t.slots j = some q)
      rw [hqueue, List.mem_append, htakes.mem_rest hnd] at hj
      rcases hj with ⟨hj, hne⟩ | hj
      · -- A process that was queued before is current nowhere.
        have hcj := h.placed.not_current hj cpu
        rw [hother j fun e => hne (congrArg _ e), if_neg hcj] at hq
        rw [lastPreemption_cons (preemptionOf_of_ne hcj)]
        exact h.saved j q hj hq
      · -- The process that leaves the CPU is queued with the frame that was passed.
        have hcj := (Sched.mem_returning hj).symm
        have hji : j ≠ i := fun e => h.placed.not_current htakes.mem cpu (hcj.trans (congrArg _ e))
        obtain ⟨r, hr⟩ := h.placed.exists_current hcj
        rw [hother j hji, if_pos hcj, hr, Option.map_some, Option.some.injEq] at hq
        have hpost : Function.update s.current cpu i.val cpu ≠ j.val := by
          rw [Function.update_self]
          exact fun e => hji (Fin.ext e.symm)
        rw [lastPreemption_cons_some (preemptionOf_of_left hcj hpost), Option.getD_some, ← hq,
          leave, if_pos (h.running cpu j r hcj hr)]
        rfl
    · have hji : j ≠ i := ne_of_slots htaken hj
      have hnone : s.table.slots j = none := by
        have hj' : t.slots j = none := hj
        rw [hother j hji] at hj'
        split at hj'
        next => exact Option.map_eq_none_iff.mp hj'
        next => exact hj'
      rw [lastPreemption_cons (preemptionOf_of_ne ((h.placed.free hnone).2 cpu))]
      exact h.fresh j hnone

/-- Every operation is recorded. -/
theorem op (h : Recorded ts s) {env : Env} {o : Op} (hs : o.Step env s s') :
    Recorded (⟨s, o, s'⟩ :: ts) s' := by
  cases o with
  | create name entry stackTop mode parent =>
    cases hs
    exact h.create (h.placed.creates env name entry stackTop mode parent)
  | start cpu =>
    obtain ⟨⟨r, s''⟩, hr, hs'⟩ := Exec.bind_eq_ok.mp hs
    cases hs'
    exact h.start (h.placed.starts hr)
  | schedule cpu frame =>
    obtain ⟨⟨r, s''⟩, hr, hs'⟩ := Exec.bind_eq_ok.mp hs
    cases hs'
    exact h.schedule (h.placed.schedules hr)

/-- A run is recorded. -/
theorem of_trace {env : Env} (h : Trace Kernel.init (Op.Step env) ts s) : Recorded ts s := by
  induction h with
  | nil => exact init
  | cons _ hs ih => exact ih.op hs

/-- A process that a CPU goes over to is resumed with the frame of its last preemption. -/
theorem switch_frame (h : Recorded ts s) {cpu : Cpu} {frame r : ℕ}
    (hs : scheduleFromIrq cpu frame s = .ok (r, s')) {i : Fin maxProcs} {p : Process}
    (hpre : s.current cpu ≠ i.val) (hpost : s'.current cpu = i.val)
    (hp : s.table.slots i = some p) :
    r = (lastPreemption i ts).getD (initContext p.stackTop) := by
  cases h.placed.schedules hs with
  | resume => exact absurd hpost hpre
  | @switch t j q pre post htakes hqueue htaken hother =>
    have hij : j = i := Fin.ext ((Function.update_self ..).symm.trans hpost)
    subst hij
    rw [htakes.slot] at hp
    cases hp
    exact h.saved _ _ htakes.mem htakes.slot

end Recorded

/-- What an operation leaves of a process: its stack, and its frame if it is `Ready`. -/
def Sched.KeepsFrames (s s' : Sched) : Prop :=
  ∀ (i : Fin maxProcs) (p : Process), s.table.slots i = some p → ∃ p',
    s'.table.slots i = some p' ∧ p'.stackTop = p.stackTop ∧
      (p.state = .ready → p'.contextSp = p.contextSp)

/-- No operation changes the frame of a `Ready` process. -/
theorem Recorded.keepsFrames {ts : List (Transition Sched Op)} {s s' : Sched} (h : Recorded ts s)
    {env : Env} {o : Op} (hs : o.Step env s s') : s.KeepsFrames s' := by
  intro i p hp
  -- A process that is current on a CPU is `Running`.
  have hrun : ∀ cpu, s.current cpu = i.val → p.state = .running := fun cpu hcur => h.running cpu i p hcur hp
  have hnotReady : ∀ cpu, s.current cpu = i.val → p.state ≠ .ready := by
    intro cpu hcur hready
    exact absurd (hready.symm.trans (hrun cpu hcur)) (by decide)
  obtain ⟨p', hp', halters⟩ := h.placed.alters hs hp
  refine ⟨p', hp', ?_⟩
  cases halters with
  | same => exact ⟨rfl, fun _ => rfl⟩
  | dispatch cpu => exact ⟨rfl, fun _ => rfl⟩
  | resume cpu frame hcur => exact ⟨rfl, fun hready => absurd hready (hnotReady cpu hcur)⟩
  | leave cpu frame hcur =>
    refine ⟨?_, fun hready => absurd hready (hnotReady cpu hcur)⟩
    rw [leave, if_pos (hrun cpu hcur)]
    rfl

/-- In every run, a call of `schedule_from_irq` that goes over to a process returns the frame that
was passed at the process's last preemption, or its initial frame if it was never preempted. And no
operation changes the saved frame of a `Ready` process. -/
theorem switch_resumes (env : Env) (ts : List (Transition Sched Op)) (s : Sched)
    (h : Trace init (Op.Step env) ts s) :
    (∀ cpu frame r s', scheduleFromIrq cpu frame s = .ok (r, s') →
      ∀ (i : Fin maxProcs) (p : Process), s.current cpu ≠ i.val → s'.current cpu = i.val →
        s.table.slots i = some p → r = (lastPreemption i ts).getD (initContext p.stackTop)) ∧
      ∀ o s', Op.Step env s o s' → s.KeepsFrames s' := by
  have hrec := Recorded.of_trace h
  refine ⟨?_, fun o s' hs => hrec.keepsFrames hs⟩
  intro cpu frame r s' hs i p hpre hpost hp
  exact hrec.switch_frame hs hpre hpost hp

/-- The timer takes the first of two processes off its CPU. -/
def preemption : List Op :=
  [.create "a" 0 0 .user none, .create "b" 0 0 .user none, .start 0, .schedule 0 0x1000]

/-- After `preemption`, the last frame of the first process is the one that was passed, the second
process is current, and the next tick goes over to the first. -/
theorem replay_preemption : (replay (Op.run sampleEnv) preemption [] init >>= fun x => do
    let y ← scheduleFromIrq 0 0x2000 x.2
    return (lastPreemption 0 x.1, x.2.current 0, y.2.current 0, (x.2.table.slots 0).isSome)) =
      .ok (some 0x1000, 1, 0, true) := by
  decide +kernel

/-- `switch_resumes` after `preemption`: the next tick resumes the first process where it was. -/
theorem switch_resumes_preemption : ∃ ts s, Trace init (Op.Step sampleEnv) ts s ∧
    ∃ s', scheduleFromIrq 0 0x2000 s = .ok (0x1000, s') := by
  obtain ⟨⟨ts, s⟩, hrun, hy⟩ := Exec.bind_eq_ok.mp replay_preemption
  obtain ⟨⟨r, s'⟩, hs, hfacts⟩ := Exec.bind_eq_ok.mp hy
  have htrace : Trace init (Op.Step sampleEnv) ts s := Trace.of_replay .nil hrun
  simp only [Exec.pure_eq, Except.ok.injEq, Prod.mk.injEq] at hfacts
  obtain ⟨hlast, hpre, hpost, hsome⟩ := hfacts
  obtain ⟨p, hp⟩ := Option.isSome_iff_exists.mp hsome
  have hr := (switch_resumes sampleEnv ts s htrace).1 0 0x2000 r s' hs 0 p (by rw [hpre]; decide)
    hpost hp
  rw [hlast, Option.getD_some] at hr
  exact ⟨ts, s, htrace, s', hr ▸ hs⟩

end Ralix.Kernel
