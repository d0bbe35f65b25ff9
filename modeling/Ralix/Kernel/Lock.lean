import Ralix.Kernel.Scheduler
import Ralix.Lib.Trace

/-!
# The lock and the timer interrupt

`SpinLock::lock` does not mask interrupts, and the handler of the timer interrupt takes the
`PROCESS_TABLE` lock too. So an interrupt that arrives while code on the same CPU holds the lock spins
in its handler for ever: the code that would drop the lock is the code that it interrupted. Here each
CPU runs a thread, from `init_per_cpu` through `start_on_cpu` to the code of processes and their
system calls, and a handler of the timer interrupt over it. An exception masks interrupts until
`eret`, so the handler is not interrupted, and neither are system calls. `init_per_cpu` unmasks
interrupts, and nothing masks them in `start_on_cpu`.

`Cores.step` is one step of one CPU, and `not_stuck_of_clear` says that a handler meets a lock that
its own CPU holds if, and only if, an interrupt is taken in the critical section of `start_on_cpu`.
-/

namespace Ralix.Kernel

open Lib

/-- Where the code that an interrupt may interrupt is. -/
inductive Thread where
  /-- In `init_per_cpu`: `timer::init_tick`, the interrupt controller, the message, `enable_irq`. -/
  | initTick
  | enableTimer
  | message
  | enableIrq
  /-- In `start_on_cpu`, before the lock. -/
  | starting
  /-- In its critical section. -/
  | startLocked
  /-- The same, with the stack to start on. -/
  | startScheduled (stackTop : ℕ)
  /-- Past the critical section, before `start_first` has jumped. -/
  | startUnlocked (stackTop : ℕ)
  /-- Halted in the critical section: no process could be taken. -/
  | panicked
  /-- In the code of a process. -/
  | process
  /-- In a system call, before the lock. -/
  | syscall
  /-- In a system call, holding the lock. -/
  | syscallLocked
  /-- In a system call, past the lock. -/
  | syscallUnlocked
deriving DecidableEq

/-- Whether the code holds the lock. -/
def Thread.Holds : Thread → Prop
  | startLocked | startScheduled _ | panicked | syscallLocked => True
  | _ => False

/-- Whether interrupts are unmasked while the code runs. -/
def Thread.Open : Thread → Prop
  | starting | startLocked | startScheduled _ | startUnlocked _ | panicked | process => True
  | _ => False

/-- Whether the code is in the critical section of `start_on_cpu`. -/
def Thread.Starts : Thread → Prop
  | startLocked | startScheduled _ | panicked => True
  | _ => False

/-- The critical section of `start_on_cpu` is the only code that holds the lock with interrupts
unmasked. System calls mask them. -/
theorem Thread.starts_iff (t : Thread) : t.Starts ↔ t.Holds ∧ t.Open := by
  cases t <;> simp [Thread.Starts, Thread.Holds, Thread.Open]

/-- Where the handler of the timer interrupt is, from `irq_vector` to `eret`. -/
inductive Handler where
  /-- The frame is saved, and `irq_handler` is to find out whose interrupt it is. -/
  | entry (frame : ℕ)
  /-- In `irq_handler`, before `keyboard::poll`. -/
  | poll (frame : ℕ)
  /-- Before `timer::tick`. -/
  | tick (frame : ℕ)
  /-- In `schedule_from_irq`, before the lock. -/
  | lock (frame : ℕ)
  /-- In its critical section. -/
  | locked (frame : ℕ)
  /-- The same, with the frame to resume. -/
  | scheduled (next : ℕ)
  /-- Past the critical section. -/
  | unlocked (next : ℕ)

/-- The CPUs, the lock, the scheduler's statics, and the interrupted code of each saved frame. -/
structure Cores where
  sched : Sched
  /-- The flag of the lock. -/
  locked : Bool
  thread : Cpu → Thread
  handler : Cpu → Option Handler
  /-- `PSTATE.I`. -/
  masked : Cpu → Bool
  /-- Frames of timer interrupts. Those of other interrupts are popped by their own handler. -/
  frames : ℕ → Thread

/-- A step of a CPU. -/
inductive Event where
  /-- The thread goes on. -/
  | thread (c : Cpu)
  /-- A process calls the kernel. -/
  | svc (c : Cpu)
  /-- A system call writes to the table. -/
  | write (c : Cpu) (table : ProcessTable)
  /-- An interrupt is taken, and its frame is saved. -/
  | irq (c : Cpu) (frame : ℕ)
  /-- The handler finds that the interrupt was not the timer's, and returns. -/
  | spurious (c : Cpu)
  /-- The handler goes on. -/
  | handler (c : Cpu)

namespace Cores

/-- The CPUs at the start of `init_per_cpu`. The frames of the processes are initial ones. -/
def boot (s : Sched) : Cores where
  sched := s
  locked := false
  thread _ := .initTick
  handler _ := none
  masked _ := true
  frames _ := .process

/-- The CPUs with one thread elsewhere. -/
def setThread (m : Cores) (c : Cpu) (t : Thread) : Cores :=
  { m with thread := Function.update m.thread c t }

/-- The CPUs with one handler elsewhere. -/
def setHandler (m : Cores) (c : Cpu) (h : Option Handler) : Cores :=
  { m with handler := Function.update m.handler c h }

/-- The CPUs with the interrupts of one masked or unmasked. -/
def setMasked (m : Cores) (c : Cpu) (b : Bool) : Cores :=
  { m with masked := Function.update m.masked c b }

/-- The next step of a thread. -/
def stepThread (m : Cores) (c : Cpu) : Option Cores :=
  match m.thread c with
  | .initTick => some (m.setThread c .enableTimer)
  | .enableTimer => some (m.setThread c .message)
  | .message => some (m.setThread c .enableIrq)
  | .enableIrq => some ((m.setMasked c false).setThread c .starting)
  | .starting =>
    if m.locked then none else some ({ m with locked := true }.setThread c .startLocked)
  | .startLocked =>
    match startOnCpu c m.sched with
    | .ok ((_, stackTop), s) => some ({ m with sched := s }.setThread c (.startScheduled stackTop))
    | .error _ => some (m.setThread c .panicked)
  | .startScheduled stackTop =>
    some ({ m with locked := false }.setThread c (.startUnlocked stackTop))
  | .startUnlocked _ => some (m.setThread c .process)
  | .panicked => none
  | .process => none
  | .syscall =>
    if m.locked then none else some ({ m with locked := true }.setThread c .syscallLocked)
  | .syscallLocked => some ({ m with locked := false }.setThread c .syscallUnlocked)
  | .syscallUnlocked => some ((m.setMasked c false).setThread c .process)

/-- The next step of a handler. `eret` resumes the code of the frame, with interrupts unmasked. -/
def stepHandler (m : Cores) (c : Cpu) : Handler → Option Cores
  | .entry frame =>
    some ({ m with frames := Function.update m.frames frame (m.thread c) }.setHandler c
      (some (.poll frame)))
  | .poll frame => some (m.setHandler c (some (.tick frame)))
  | .tick frame => some (m.setHandler c (some (.lock frame)))
  | .lock frame =>
    if m.locked then none else some ({ m with locked := true }.setHandler c (some (.locked frame)))
  | .locked frame =>
    match scheduleFromIrq c frame m.sched with
    | .ok (next, s) => some ({ m with sched := s }.setHandler c (some (.scheduled next)))
    | .error _ => none
  | .scheduled next => some ({ m with locked := false }.setHandler c (some (.unlocked next)))
  | .unlocked next => some (((m.setThread c (m.frames next)).setHandler c none).setMasked c false)

/-- One step. It is `none` where the CPU cannot take the step, as in a spin. -/
def step : Event → Cores → Option Cores
  | .thread c, m => if (m.handler c).isNone then m.stepThread c else none
  | .svc c, m =>
    if (m.handler c).isNone ∧ m.thread c = .process then
      some ((m.setMasked c true).setThread c .syscall)
    else none
  | .write c table, m =>
    if (m.handler c).isNone ∧ m.thread c = .syscallLocked then
      some { m with sched := { m.sched with table := table } }
    else none
  | .irq c frame, m =>
    if (m.handler c).isNone ∧ m.masked c = false then
      some ((m.setHandler c (some (.entry frame))).setMasked c true)
    else none
  | .spurious c, m =>
    match m.handler c with
    | some (.entry _) => some ((m.setHandler c none).setMasked c false)
    | _ => none
  | .handler c, m => (m.handler c).bind (m.stepHandler c)

/-- A step that an event takes. -/
def Step (m : Cores) (e : Event) (m' : Cores) : Prop := m.step e = some m'

/-- The handler of a CPU is about to take the lock, and the code that it interrupted holds it. -/
def Stuck (m : Cores) (c : Cpu) : Prop :=
  ∃ frame, m.handler c = some (.lock frame) ∧ (m.thread c).Holds

end Cores

/-- The condition on an interrupt that the handler finds to be the timer's: it was not taken in the
critical section of `start_on_cpu`. -/
def Event.Clear (m : Cores) : Event → Prop
  | handler c => ∀ frame, m.handler c = some (.entry frame) → ¬ (m.thread c).Starts
  | _ => True

/-- Whether the handler does not know yet whose interrupt it is. -/
def Handler.Early : Handler → Prop
  | entry _ => True
  | _ => False

/-- How a CPU's thread, its handler, and its mask agree while interrupts are clear. Under a handler
is code that was interrupted, which does not hold the lock if the interrupt is the timer's. -/
structure Calm (t : Thread) (h : Option Handler) (masked : Bool) : Prop where
  interrupted : ∀ p, h = some p → t.Open
  free : ∀ p, h = some p → ¬ p.Early → ¬ t.Holds
  /-- Interrupts are unmasked in the code that is to run with them unmasked, and nowhere else. -/
  masked : masked = false ↔ h = none ∧ t.Open

namespace Cores

variable {m m' : Cores} {c : Cpu}

/-- What holds while interrupts are clear. -/
structure AllCalm (m : Cores) : Prop where
  cpus : ∀ c, Calm (m.thread c) (m.handler c) (m.masked c)
  /-- No saved code holds the lock, or had interrupts masked. -/
  saved : ∀ frame, ¬ (m.frames frame).Holds ∧ (m.frames frame).Open

/-- No handler is stuck. -/
theorem AllCalm.not_stuck (h : m.AllCalm) (c : Cpu) : ¬ m.Stuck c := by
  rintro ⟨frame, hframe, hholds⟩
  exact (h.cpus c).free _ hframe id hholds

/-- A CPU without a handler. -/
theorem Calm.idle {t : Thread} {b : Bool} (h : b = false ↔ t.Open) : Calm t none b where
  interrupted _ hp := by cases hp
  free _ hp := by cases hp
  masked := by rw [h, eq_self, true_and]

/-- Before the first step, all is calm. -/
theorem AllCalm.boot (s : Sched) : (boot s).AllCalm where
  cpus _ := Calm.idle (by simp [Cores.boot, Thread.Open])
  saved _ := ⟨id, trivial⟩

/-- A step of one CPU leaves the others as they are. -/
theorem AllCalm.update (h : m.AllCalm)
    (hother : ∀ d, d ≠ c → m'.thread d = m.thread d ∧ m'.handler d = m.handler d ∧
      m'.masked d = m.masked d)
    (hsaved : ∀ frame, ¬ (m'.frames frame).Holds ∧ (m'.frames frame).Open)
    (hcpu : Calm (m'.thread c) (m'.handler c) (m'.masked c)) : m'.AllCalm := by
  refine ⟨fun d => ?_, hsaved⟩
  by_cases hd : d = c
  · rw [hd]
    exact hcpu
  · obtain ⟨ht, hh, hm⟩ := hother d hd
    rw [ht, hh, hm]
    exact h.cpus d

/-- A thread that goes on without a handler over it keeps its mask, unless it changes it. -/
theorem Calm.thread {t t' : Thread} {b : Bool} (h : Calm t none b) (ht : t.Open ↔ t'.Open) :
    Calm t' none b := by
  refine Calm.idle ?_
  rw [h.masked, eq_self, true_and, ht]

/-- A step of a thread keeps all calm. -/
theorem AllCalm.stepThread (h : m.AllCalm) (hnone : m.handler c = none)
    (hs : m.stepThread c = some m') : m'.AllCalm := by
  have hc := h.cpus c
  rw [hnone] at hc
  -- The thread goes to `t`, and leaves its mask alone.
  have hgo : ∀ (t : Thread) (n : Cores), n.thread = m.thread → n.handler = m.handler →
      n.masked = m.masked → n.frames = m.frames → ((m.thread c).Open ↔ t.Open) →
        (n.setThread c t).AllCalm := by
    intro t n ht hh hm hf hopen
    refine h.update (c := c) (fun d hd => ?_) ?_ ?_
    · simp [setThread, hd, ht, hh, hm]
    · simpa [setThread, hf] using h.saved
    · simp only [setThread, Function.update_self, hh, hm, hnone]
      exact Calm.thread hc hopen
  -- The thread goes to `t` and unmasks interrupts.
  have hunmask : ∀ t : Thread, t.Open → ((m.setMasked c false).setThread c t).AllCalm := by
    intro t ht
    refine h.update (c := c) (fun d hd => ?_) h.saved ?_
    · simp [setThread, setMasked, hd]
    · simp only [setThread, setMasked, Function.update_self, hnone]
      exact Calm.idle (by simp [ht])
  unfold Cores.stepThread at hs
  split at hs <;> rename_i hthread
  all_goals rw [hthread] at hgo
  · cases hs
    exact hgo _ m rfl rfl rfl rfl Iff.rfl
  · cases hs
    exact hgo _ m rfl rfl rfl rfl Iff.rfl
  · cases hs
    exact hgo _ m rfl rfl rfl rfl Iff.rfl
  · cases hs
    exact hunmask _ trivial
  · split at hs
    · cases hs
    · cases hs
      exact hgo _ _ rfl rfl rfl rfl Iff.rfl
  · split at hs
    · cases hs
      exact hgo _ _ rfl rfl rfl rfl Iff.rfl
    · cases hs
      exact hgo _ m rfl rfl rfl rfl Iff.rfl
  · cases hs
    exact hgo _ _ rfl rfl rfl rfl Iff.rfl
  · cases hs
    exact hgo _ m rfl rfl rfl rfl Iff.rfl
  · cases hs
  · cases hs
  · split at hs
    · cases hs
    · cases hs
      exact hgo _ _ rfl rfl rfl rfl Iff.rfl
  · cases hs
    exact hgo _ _ rfl rfl rfl rfl Iff.rfl
  · cases hs
    exact hunmask _ trivial

/-- A step of a handler keeps all calm, if the interrupt is clear. -/
theorem AllCalm.stepHandler (h : m.AllCalm) (hclear : (Event.handler c).Clear m) {p : Handler}
    (hsome : m.handler c = some p) (hs : m.stepHandler c p = some m') : m'.AllCalm := by
  have hc := h.cpus c
  rw [hsome] at hc
  have hopen := hc.interrupted p rfl
  have hmasked : ¬ m.masked c = false := by
    rw [hc.masked]
    simp
  -- The handler goes to `p'`, over the same code, which does not hold the lock.
  have hgo : ¬ (m.thread c).Holds → ∀ (p' : Handler) (n : Cores), n.thread = m.thread →
      n.handler = m.handler → n.masked = m.masked →
      (∀ frame, ¬ (n.frames frame).Holds ∧ (n.frames frame).Open) →
        (n.setHandler c (some p')).AllCalm := by
    intro hfree p' n ht hh hm hf
    refine h.update (c := c) (fun d hd => ?_) hf ?_
    · simp [setHandler, hd, ht, hh, hm]
    · simp only [setHandler, Function.update_self, ht, hm]
      exact ⟨fun _ _ => hopen, fun _ _ _ => hfree, by simp [hmasked]⟩
  cases p with
  | entry frame =>
    cases hs
    have hfree : ¬ (m.thread c).Holds :=
      fun hholds => hclear frame hsome ((Thread.starts_iff _).mpr ⟨hholds, hopen⟩)
    refine hgo hfree _ _ rfl rfl rfl fun f => ?_
    -- The frame that is saved is that of the interrupted code.
    show ¬ (Function.update m.frames frame (m.thread c) f).Holds ∧
      (Function.update m.frames frame (m.thread c) f).Open
    by_cases hf : f = frame
    · rw [hf, Function.update_self]
      exact ⟨hfree, hopen⟩
    · rw [Function.update_of_ne hf]
      exact h.saved f
  | poll frame =>
    cases hs
    exact hgo (hc.free _ rfl id) _ m rfl rfl rfl h.saved
  | tick frame =>
    cases hs
    exact hgo (hc.free _ rfl id) _ m rfl rfl rfl h.saved
  | lock frame =>
    rw [Cores.stepHandler] at hs
    split at hs
    · cases hs
    · cases hs
      exact hgo (hc.free _ rfl id) _ _ rfl rfl rfl h.saved
  | locked frame =>
    rw [Cores.stepHandler] at hs
    split at hs
    · cases hs
      exact hgo (hc.free _ rfl id) _ _ rfl rfl rfl h.saved
    · cases hs
  | scheduled next =>
    cases hs
    exact hgo (hc.free _ rfl id) _ _ rfl rfl rfl h.saved
  | unlocked next =>
    cases hs
    refine h.update (c := c) (fun d hd => ?_) h.saved ?_
    · simp [setThread, setHandler, setMasked, hd]
    · simp only [setThread, setHandler, setMasked, Function.update_self]
      exact Calm.idle (by simp [(h.saved next).2])

/-- A step keeps all calm, if an interrupt is clear. -/
theorem AllCalm.step (h : m.AllCalm) {e : Event} (hclear : e.Clear m) (hs : m.Step e m') :
    m'.AllCalm := by
  cases e with
  | thread c =>
    obtain ⟨hnone, hs⟩ := Option.ite_none_right_eq_some.mp hs
    exact h.stepThread (Option.isNone_iff_eq_none.mp hnone) hs
  | svc c =>
    obtain ⟨⟨hnone, hthread⟩, hs⟩ := Option.ite_none_right_eq_some.mp hs
    cases hs
    refine h.update (c := c) (fun d hd => ?_) h.saved ?_
    · simp [setThread, setMasked, hd]
    · simp only [setThread, setMasked, Function.update_self]
      rw [Option.isNone_iff_eq_none.mp hnone]
      exact Calm.idle (by simp [Thread.Open])
  | write c table =>
    obtain ⟨-, hs⟩ := Option.ite_none_right_eq_some.mp hs
    cases hs
    exact ⟨h.cpus, h.saved⟩
  | irq c frame =>
    obtain ⟨⟨-, hmask⟩, hs⟩ := Option.ite_none_right_eq_some.mp hs
    cases hs
    -- interrupts are unmasked, so the code that is interrupted does not hold the lock
    have hopen := ((h.cpus c).masked.mp hmask).2
    refine h.update (c := c) (fun d hd => ?_) h.saved ?_
    · simp [setHandler, setMasked, hd]
    · simp only [setHandler, setMasked, Function.update_self]
      refine ⟨fun _ _ => hopen, fun p hp hlate => ?_, by simp⟩
      obtain rfl : Handler.entry frame = p := Option.some.inj hp
      exact absurd trivial hlate
  | spurious c =>
    rw [Step, Cores.step] at hs
    split at hs
    next frame hframe =>
      cases hs
      have hopen := (h.cpus c).interrupted _ hframe
      refine h.update (c := c) (fun d hd => ?_) h.saved ?_
      · simp [setHandler, setMasked, hd]
      · simp only [setHandler, setMasked, Function.update_self]
        exact Calm.idle (by simp [hopen])
    next => cases hs
  | handler c =>
    obtain ⟨p, hp, hs⟩ := Option.bind_eq_some_iff.mp hs
    exact h.stepHandler hclear hp hs

/-- An interrupt of code that holds the lock, with interrupts unmasked, ends in a handler that is
stuck. -/
theorem exists_stuck {s : Sched} {ts : List (Transition Cores Event)}
    (h : Trace (boot s) Step ts m) (hnone : m.handler c = none) (hmask : m.masked c = false)
    (hholds : (m.thread c).Holds) :
    ∃ ts' m', Trace (boot s) Step (ts' ++ ts) m' ∧ m'.Stuck c := by
  let m₁ := (m.setHandler c (some (.entry 0))).setMasked c true
  have h₁ : m.Step (.irq c 0) m₁ := if_pos ⟨by rw [hnone]; rfl, hmask⟩
  -- The handler polls the keyboard and sets the timer before it comes to the lock.
  have hgo : ∀ (n n' : Cores) (p : Handler), n.handler c = some p →
      n.stepHandler c p = some n' → n.Step (.handler c) n' := by
    intro n n' p hp hn
    show (n.handler c).bind (n.stepHandler c) = _
    rw [hp]
    exact hn
  have hself : ∀ (n : Cores) (p : Handler), (n.setHandler c (some p)).handler c = some p :=
    fun n p => Function.update_self ..
  let m₂ := { m₁ with frames := Function.update m₁.frames 0 (m₁.thread c) }.setHandler c
    (some (.poll 0))
  have h₂ := hgo m₁ m₂ (.entry 0) (hself _ _) rfl
  let m₃ := m₂.setHandler c (some (.tick 0))
  have h₃ := hgo m₂ m₃ (.poll 0) (hself _ _) rfl
  have h₄ := hgo m₃ (m₃.setHandler c (some (.lock 0))) (.tick 0) (hself _ _) rfl
  exact ⟨[_, _, _, _], _, (((h.cons h₁).cons h₂).cons h₃).cons h₄, 0, hself _ _, hholds⟩

end Cores

open Cores

/-- In every run in which no timer interrupt is taken in the critical section of `start_on_cpu`, no
handler comes to the lock over code that holds it. And from every state of such a run in which a CPU
is in the critical section of `start_on_cpu`, an interrupt there leads to a handler that does. -/
theorem not_stuck_of_clear (s : Sched) :
    (∀ ts m, Trace (boot s) Step ts m → (∀ x ∈ ts, x.act.Clear x.pre) →
      ∀ m' ∈ reached (boot s) ts, ∀ c, ¬ m'.Stuck c) ∧
      ∀ ts m c, Trace (boot s) Step ts m → (∀ x ∈ ts, x.act.Clear x.pre) →
        m.handler c = none → (m.thread c).Starts →
          ∃ ts' m', Trace (boot s) Step (ts' ++ ts) m' ∧ m'.Stuck c := by
  have hcalm : ∀ ts m, Trace (boot s) Step ts m → (∀ x ∈ ts, x.act.Clear x.pre) →
      ∀ m' ∈ reached (boot s) ts, m'.AllCalm :=
    fun ts m h hclear =>
      h.always (AllCalm.boot s) (fun _ _ _ hc ha hs => hc.step ha hs) hclear
  refine ⟨fun ts m h hclear m' hm' => (hcalm ts m h hclear m' hm').not_stuck, ?_⟩
  intro ts m c h hclear hnone hstarts
  obtain ⟨hholds, hopen⟩ := (Thread.starts_iff _).mp hstarts
  have hc := (hcalm ts m h hclear m h.end_mem_reached).cpus c
  exact exists_stuck h hnone (hc.masked.mpr ⟨hnone, hopen⟩) hholds

/-- CPU 0 on its way into the critical section of `start_on_cpu`. -/
theorem trace_startLocked : ∃ ts m, Trace (boot init) Step ts m ∧ (∀ x ∈ ts, x.act.Clear x.pre) ∧
    m.handler 0 = none ∧ m.thread 0 = .startLocked ∧ m.masked 0 = false := by
  let m₁ := (boot init).setThread 0 .enableTimer
  have h₁ : (boot init).Step (.thread 0) m₁ := rfl
  let m₂ := m₁.setThread 0 .message
  have h₂ : m₁.Step (.thread 0) m₂ := rfl
  let m₃ := m₂.setThread 0 .enableIrq
  have h₃ : m₂.Step (.thread 0) m₃ := rfl
  let m₄ := (m₃.setMasked 0 false).setThread 0 .starting
  have h₄ : m₃.Step (.thread 0) m₄ := rfl
  let m₅ := { m₄ with locked := true }.setThread 0 .startLocked
  have h₅ : m₄.Step (.thread 0) m₅ := rfl
  exact ⟨_, m₅, ((((Trace.nil.cons h₁).cons h₂).cons h₃).cons h₄).cons h₅,
    by simp [Event.Clear], rfl, rfl, rfl⟩

/-- `not_stuck_of_clear` up to the critical section of `start_on_cpu`. -/
theorem not_stuck_of_clear_start : ∃ ts m, Trace (boot init) Step ts m ∧
    (∀ m' ∈ reached (boot init) ts, ∀ c, ¬ m'.Stuck c) ∧
      ∃ ts' m', Trace (boot init) Step (ts' ++ ts) m' ∧ m'.Stuck 0 := by
  obtain ⟨ts, m, h, hclear, hnone, hthread, -⟩ := trace_startLocked
  exact ⟨ts, m, h, (not_stuck_of_clear init).1 ts m h hclear,
    (not_stuck_of_clear init).2 ts m 0 h hclear hnone (by rw [hthread]; trivial)⟩

/-- A timer interrupt in the critical section of `start_on_cpu` meets its own CPU's lock. -/
theorem stuck_in_start : ¬ ∀ s ts m, Trace (boot s) Step ts m →
    ∀ m' ∈ reached (boot s) ts, ∀ c, ¬ m'.Stuck c := by
  intro hall
  obtain ⟨ts, m, h, -, hnone, hthread, hmask⟩ := trace_startLocked
  obtain ⟨ts', m', h', hstuck⟩ := exists_stuck h hnone hmask (by rw [hthread]; trivial)
  exact hall _ _ _ h' m' h'.end_mem_reached 0 hstuck

end Ralix.Kernel
