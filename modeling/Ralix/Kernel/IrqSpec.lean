import Ralix.Kernel.Irq
import Ralix.Lib.Word

/-!
# When the interrupt path keeps CPUs off each other's stacks

`Safe` says where each CPU's stack pointer is in each phase, and where the saved frames of waiting
processes are. A CPU that has put itself on a process in the critical section uses two stacks until
`mov sp, x0`: the one that it stands on and the one that it goes to. `Safe.apart` is that no two
CPUs use one stack in either way. Every step keeps it, apart from a critical section that takes a
process whose stack is still in use, and `exclusive_of_headLeft` says that this is the only way to
lose it. `not_exclusive` is a run that does.
-/

namespace Ralix.Kernel

open Lib ProcessTable

variable {env : Env}

/-- The stack pointer is on the stack of the slot with the index, and on no other. -/
def At (env : Env) (idx sp : ℕ) : Prop := ∀ i : Fin maxProcs, OnStack env i sp ↔ idx = i.val

/-- The top of a stack is on it. -/
theorem at_ownStackTop (env : Env) (i : Fin maxProcs) : At env i.val (env.ownStackTop i) := by
  intro j
  unfold OnStack Env.ownStackTop stackSize
  omega

/-- A stack pointer that is on the stacks that another is on is at the same index. -/
theorem At.of_sameStack {idx a b : ℕ} (h : At env idx b) (hab : SameStack env a b) :
    At env idx a :=
  fun i => (hab i).trans (h i)

/-- The initial frame of a process on its own stack ends at the top of the stack. -/
theorem initContext_ownStackTop (env : Env) (i : Fin maxProcs) :
    initContext (env.ownStackTop i) + trapFrameSize = env.ownStackTop i := by
  have hfits := env.fits
  have haligned := env.aligned
  have hi := i.isLt
  unfold initContext Env.ownStackTop trapFrameSize
  unfold maxProcs stackSize at *
  have hmod : (env.processStacks + i.val * (512 * 1024) + 512 * 1024 + 2^64 - (31 * 8 + 5 * 8)) %
      2^64 = env.processStacks + i.val * (512 * 1024) + 512 * 1024 - 288 := by omega
  rw [hmod, show (0xFFFFFFFFFFFFFFF0 : ℕ) = 2^64 - 2^4 by decide,
    and_highMask (by omega) (by decide)]
  omega

/-- Whether a phase holds the lock. -/
def Phase.Holds : Phase → Prop
  | locked _ | scheduled _ | startLocked | startScheduled _ => True
  | _ => False

/-- Where the stack pointer and the frames of a CPU are, for its current index. -/
def Phase.Placed (env : Env) (idx sp : ℕ) : Phase → Prop
  | running => At env idx sp
  | vector frame | locked frame => At env idx sp ∧ At env idx (frame + trapFrameSize)
  | scheduled next | finishing next | returned next => At env idx (next + trapFrameSize)
  | startLocked => idx = invalidIdx ∧ At env idx sp
  | startScheduled stackTop | startFinishing stackTop =>
    At env invalidIdx sp ∧ At env idx stackTop

/-- A stack pointer may move on its stack. -/
theorem Phase.Placed.move {idx sp sp' : ℕ} {p : Phase} (h : p.Placed env idx sp)
    (hs : SameStack env sp' sp) : p.Placed env idx sp' := by
  cases p with
  | running => exact At.of_sameStack h hs
  | vector frame => exact ⟨h.1.of_sameStack hs, h.2⟩
  | locked frame => exact ⟨h.1.of_sameStack hs, h.2⟩
  | startLocked => exact ⟨h.1, h.2.of_sameStack hs⟩
  | startScheduled top => exact ⟨h.1.of_sameStack hs, h.2⟩
  | startFinishing top => exact ⟨h.1.of_sameStack hs, h.2⟩
  | scheduled next => exact h
  | finishing next => exact h
  | returned next => exact h

namespace Machine

/-- A CPU stands on a stack, or is to go to it. -/
def Uses (env : Env) (m : Machine) (c : Cpu) (i : Fin maxProcs) : Prop :=
  OnStack env i (m.sp c) ∨ m.sched.current c = i.val

/-- The invariant of the runs in which the head of the queue has been left. -/
structure Safe (env : Env) (m : Machine) : Prop where
  inv : Inv m.sched
  /-- The frame of a waiting process ends on its stack. -/
  saved : ∀ (i : Fin maxProcs) (p : Process), m.sched.table.slots i = some p → p.Waiting →
    At env i.val (p.contextSp + trapFrameSize)
  /-- A process starts on its own stack. -/
  tops : ∀ (i : Fin maxProcs) (p : Process), m.sched.table.slots i = some p →
    At env i.val p.stackTop
  placed : ∀ c, (m.phase c).Placed env (m.sched.current c) (m.sp c)
  holds : ∀ c, (m.phase c).Holds → m.lock = some c
  /-- No two CPUs use one stack. -/
  apart : ∀ (c d : Cpu) (i : Fin maxProcs), c ≠ d → m.Uses env c i → ¬ m.Uses env d i

variable {m m' : Machine}

/-- CPUs that use different stacks stand on different stacks. -/
theorem Safe.exclusive (h : Safe env m) : m.Exclusive env :=
  fun c d i hcd hc hd => h.apart c d i hcd (.inl hc) (.inl hd)

/-- The machine at the end of boot. -/
theorem Safe.boot (b : Boot env) : Safe env (boot b) where
  inv := Inv.init
  saved _ _ hp := by cases hp
  tops _ _ hp := by cases hp
  placed c i := iff_of_false (b.off c i) (slot_ne_invalidIdx i).symm
  holds _ hc := hc.elim
  apart c d i _ hc := (hc.elim (b.off c i) (slot_ne_invalidIdx i).symm).elim

/-- A CPU takes a step outside the critical section, and uses no new stack. -/
theorem Safe.advance (h : Safe env m) (c : Cpu) (hsched : m'.sched = m.sched)
    (hphase : ∀ d, d ≠ c → m'.phase d = m.phase d) (hsp : ∀ d, d ≠ c → m'.sp d = m.sp d)
    (hplaced : (m'.phase c).Placed env (m.sched.current c) (m'.sp c))
    (hholds : ∀ d, (m'.phase d).Holds → m'.lock = some d)
    (huses : ∀ i, OnStack env i (m'.sp c) → m.Uses env c i) : Safe env m' := by
  have hsub : ∀ d i, m'.Uses env d i → m.Uses env d i := by
    intro d i hd
    unfold Uses at hd ⊢
    rw [hsched] at hd
    by_cases hdc : d = c
    · subst hdc
      exact hd.elim (huses i) .inr
    · rwa [hsp d hdc] at hd
  refine ⟨hsched ▸ h.inv, hsched ▸ h.saved, hsched ▸ h.tops, fun d => ?_, hholds,
    fun d e i hde hd he => h.apart d e i hde (hsub d i hd) (hsub e i he)⟩
  rw [hsched]
  by_cases hdc : d = c
  · subst hdc
    exact hplaced
  · rw [hphase d hdc, hsp d hdc]
    exact h.placed d

/-- A CPU in a critical section is the one that went to a phase with one, or was in it before. -/
theorem holds_setPhase {c d : Cpu} {p : Phase} (hd : ((m.setPhase c p).phase d).Holds) :
    d = c ∧ p.Holds ∨ d ≠ c ∧ (m.phase d).Holds := by
  change (Function.update m.phase c p d).Holds at hd
  by_cases hdc : d = c
  · subst hdc
    rw [Function.update_self] at hd
    exact .inl ⟨rfl, hd⟩
  · rw [Function.update_of_ne hdc] at hd
    exact .inr ⟨hdc, hd⟩

/-- A CPU goes to another phase and takes or drops the lock, where it stands. -/
theorem Safe.phase (h : Safe env m) {c : Cpu} {p : Phase} {lock : Option Cpu}
    (hplaced : p.Placed env (m.sched.current c) (m.sp c))
    (hholds : p.Holds → lock = some c) (hlock : ∀ d, d ≠ c → m.lock = some d → lock = some d) :
    Safe env ({ m with lock := lock }.setPhase c p) := by
  refine h.advance c rfl (fun d hd => Function.update_of_ne hd _ _) (fun _ _ => rfl) ?_ ?_
    fun i => .inl
  · show (Function.update m.phase c p c).Placed env _ _
    rwa [Function.update_self]
  · intro d hd
    obtain ⟨rfl, hp⟩ | ⟨hdc, hm⟩ := holds_setPhase hd
    · exact hholds hp
    · exact hlock d hdc (h.holds d hm)

/-- A CPU that does not hold the lock moves its stack pointer to a stack that it uses. -/
theorem Safe.goto (h : Safe env m) {c : Cpu} {p : Phase} {sp : ℕ}
    (hplaced : p.Placed env (m.sched.current c) sp) (hholds : ¬ p.Holds)
    (huses : ∀ i, OnStack env i sp → m.Uses env c i) :
    Safe env ((m.setSp c sp).setPhase c p) := by
  refine h.advance c rfl (fun d hd => Function.update_of_ne hd _ _)
    (fun d hd => Function.update_of_ne hd _ _) ?_ ?_ fun i hi => huses i ?_
  · show (Function.update m.phase c p c).Placed env _ (Function.update m.sp c sp c)
    rwa [Function.update_self, Function.update_self]
  · intro d hd
    obtain ⟨-, hp⟩ | ⟨-, hm⟩ := holds_setPhase hd
    · exact absurd hp hholds
    · exact h.holds d hm
  · rwa [show ((m.setSp c sp).setPhase c p).sp c = sp from Function.update_self ..] at hi

/-- `create` and `create_user` give the new process a stack that no CPU uses. -/
theorem Safe.create (h : Safe env m) (name : String) (entry : ℕ) (mode : ProcessMode)
    (parent : Option ℕ) :
    Safe env { m with sched := (createWithMode env name entry 0 mode parent m.sched).2 } := by
  rcases Nat.lt_or_ge maxProcs m.sched.table.nextPid with hfull | hfree
  · rw [createWithMode_full env name entry 0 mode parent fun i =>
      (h.inv.used i).mpr (by have := i.isLt; omega)]
    exact h
  have hinv := h.inv.create env name entry 0 mode parent
  obtain ⟨i, p, t, he, -, -, -, hi, -, -, -, -, htop, hsp, hother⟩ :=
    createWithMode_free h.inv env name entry 0 mode parent hfree
  rw [he] at hinv ⊢
  rw [if_pos rfl] at htop
  refine ⟨hinv, ?_, ?_, h.placed, h.holds, h.apart⟩
  · rintro j q (hq : t.slots j = some q) hw
    by_cases hji : j = i
    · subst hji
      rw [hi] at hq
      cases hq
      rw [hsp, htop, initContext_ownStackTop]
      exact at_ownStackTop env j
    · rw [hother j hji] at hq
      exact h.saved j q hq hw
  · rintro j q (hq : t.slots j = some q)
    by_cases hji : j = i
    · subst hji
      rw [hi] at hq
      cases hq
      rw [htop]
      exact at_ownStackTop env j
    · rw [hother j hji] at hq
      exact h.tops j q hq

/-- A CPU that is not on its way to another stack stands on the stack of its current process. -/
theorem Safe.home (h : Safe env m) {d : Cpu} {i : Fin maxProcs} (hon : OnStack env i (m.sp d))
    (hleaving : ¬ m.Leaving d) (hlock : m.lock ≠ some d) : m.sched.current d = i.val := by
  have hp := h.placed d
  have hh := h.holds d
  cases hphase : m.phase d with
  | running =>
    rw [hphase] at hp
    exact (hp i).mp hon
  | vector frame =>
    rw [hphase] at hp
    exact (hp.1 i).mp hon
  | startFinishing top =>
    rw [hphase] at hp
    exact absurd ((hp.1 i).mp hon).symm (slot_ne_invalidIdx i)
  -- From here on the CPU is leaving the stack, or holds the lock.
  | finishing next => exact absurd ⟨next, .inl hphase⟩ hleaving
  | returned next => exact absurd ⟨next, .inr hphase⟩ hleaving
  | locked frame => exact absurd (hh (by rw [hphase]; trivial)) hlock
  | scheduled next => exact absurd (hh (by rw [hphase]; trivial)) hlock
  | startLocked => exact absurd (hh (by rw [hphase]; trivial)) hlock
  | startScheduled top => exact absurd (hh (by rw [hphase]; trivial)) hlock

/-- The processes after a critical section, other than one that was taken: that of the CPU has
changed, and ends on its stack if it waits. -/
theorem Safe.stacks (h : Safe env m) {c : Cpu} {j : Fin maxProcs} {t : ProcessTable} {q : Process}
    {f : Process → Process} (htop : ∀ p, (f p).stackTop = p.stackTop)
    (hwait : ∀ p, m.sched.current c = j.val → (f p).Waiting →
      At env j.val ((f p).contextSp + trapFrameSize))
    (ht : t.slots j = if m.sched.current c = j.val
      then (m.sched.table.slots j).map f else m.sched.table.slots j) (hq : t.slots j = some q) :
    (q.Waiting → At env j.val (q.contextSp + trapFrameSize)) ∧ At env j.val q.stackTop := by
  rw [ht] at hq
  split_ifs at hq with hcj
  · obtain ⟨p, hp, rfl⟩ := Option.map_eq_some_iff.mp hq
    rw [htop]
    exact ⟨hwait p hcj, h.tops j p hp⟩
  · exact ⟨h.saved j q hq, h.tops j q hq⟩

/-- A CPU that holds the lock puts the first queued process on itself. No CPU uses the stack of the
process yet, if none is leaving it. -/
theorem Safe.put (h : Safe env m) {c : Cpu} {i : Fin maxProcs} {p : Process} {rest : List ℕ}
    {t : ProcessTable} {ph : Phase} (frame : ℕ) (hlock : m.lock = some c)
    (hinv : Inv ⟨t, Function.update m.sched.current c i.val, m.sched.initFds⟩)
    (hq : m.sched.table.queue = i.val :: rest) (hleft : m.HeadLeft env)
    (hp : m.sched.table.slots i = some p) (hi : t.slots i = some (dispatch c p))
    (hother : ∀ j, j ≠ i → t.slots j = if m.sched.current c = j.val
      then (m.sched.table.slots j).map (suspend frame) else m.sched.table.slots j)
    (hframe : m.sched.current c ≠ invalidIdx →
      At env (m.sched.current c) (frame + trapFrameSize))
    (hplaced : ph.Placed env i.val (m.sp c))
    (hon : ∀ j, OnStack env j (m.sp c) → m.Uses env c j) :
    Safe env ({ m with sched := ⟨t, Function.update m.sched.current c i.val, m.sched.initFds⟩ }.setPhase
      c ph) := by
  have hmem : i.val ∈ m.sched.table.queue := by
    rw [hq]
    exact List.mem_cons_self
  have hnot := h.inv.not_current_of_queued hmem
  -- A CPU on the stack of the process would be leaving it, and so not the head of the queue.
  have hfree : ∀ d, d ≠ c → ¬ m.Uses env d i := by
    rintro d hd (hond | hcur)
    · refine hnot d (h.home hond (fun hl => hleft i d ?_ hl hond) ?_)
      · rw [hq]
        rfl
      · rw [hlock]
        exact fun e => hd (Option.some.inj e).symm
    · exact hnot d hcur
  have hstacks : ∀ j q, t.slots j = some q →
      (q.Waiting → At env j.val (q.contextSp + trapFrameSize)) ∧ At env j.val q.stackTop := by
    intro j q hj
    by_cases hji : j = i
    · -- The process that was taken runs.
      subst hji
      rw [hi] at hj
      cases hj
      exact ⟨fun hw => absurd hw.state (by simp [dispatch]), h.tops j p hp⟩
    · refine h.stacks (f := suspend frame) (fun _ => rfl) (fun _ hcj _ => ?_) (hother j hji) hj
      rw [← hcj]
      exact hframe (hcj ▸ slot_ne_invalidIdx j)
  refine ⟨hinv, fun j q hj => (hstacks j q hj).1, fun j q hj => (hstacks j q hj).2, fun d => ?_,
    fun d hd => ?_, ?_⟩
  · show (Function.update m.phase c ph d).Placed env (Function.update m.sched.current c i.val d) _
    by_cases hdc : d = c
    · subst hdc
      rwa [Function.update_self, Function.update_self]
    · rw [Function.update_of_ne hdc, Function.update_of_ne hdc]
      exact h.placed d
  · obtain ⟨rfl, -⟩ | ⟨-, hm⟩ := holds_setPhase hd
    · exact hlock
    · exact h.holds d hm
  · -- The CPU now uses the stack that it stands on and the stack of the process, and no CPU uses
    -- either.
    have hnew : ∀ j, OnStack env j (m.sp c) ∨ Function.update m.sched.current c i.val c = j.val →
        m.Uses env c j ∨ j = i := by
      rintro j (hj | hj)
      · exact .inl (hon j hj)
      · rw [Function.update_self] at hj
        exact .inr (Fin.ext hj.symm)
    have hold : ∀ d j, d ≠ c →
        OnStack env j (m.sp d) ∨ Function.update m.sched.current c i.val d = j.val →
        m.Uses env d j := by
      intro d j hd hj
      rwa [Function.update_of_ne hd] at hj
    intro d e j hde hd he
    change OnStack env j (m.sp d) ∨ Function.update m.sched.current c i.val d = j.val at hd
    change OnStack env j (m.sp e) ∨ Function.update m.sched.current c i.val e = j.val at he
    by_cases hdc : d = c
    · subst hdc
      have he' := hold e j hde.symm he
      rcases hnew j hd with hd' | rfl
      · exact h.apart d e j hde hd' he'
      · exact hfree e hde.symm he'
    · have hd' := hold d j hdc hd
      by_cases hec : e = c
      · subst hec
        rcases hnew j he with he' | rfl
        · exact h.apart d e j hde hd' he'
        · exact hfree d hde hd'
      · exact h.apart d e j hde hd' (hold e j hec he)

/-- The critical section keeps the invariant if the head of the queue has been left. -/
theorem Safe.schedule (h : Safe env m) {c : Cpu} (hleft : m.HeadLeft env)
    (hs : m.step env (.schedule c) = some m') : Safe env m' := by
  have hc := h.placed c
  have hlock := h.holds c
  simp only [step] at hs
  split at hs
  next frame hphase =>
    rw [hphase] at hc hlock
    split at hs
    next next sched he =>
      cases hs
      have hinv := h.inv.schedule he
      match hq : m.sched.table.queue with
      | [] =>
        -- The CPU returns to the process that it interrupted.
        obtain ⟨t, he', -, -, hslots⟩ := scheduleFromIrq_idle h.inv c frame hq
        rw [he'] at he
        cases he
        have hsafe : Safe env { m with sched := ⟨t, m.sched.current, m.sched.initFds⟩ } := by
          have hstacks : ∀ j q, t.slots j = some q →
              (q.Waiting → At env j.val (q.contextSp + trapFrameSize)) ∧ At env j.val q.stackTop :=
            fun j q hj => h.stacks (f := resume c frame) (fun _ => rfl)
              (fun p _ hw => absurd hw.state (by simp [resume])) (hslots j) hj
          exact ⟨hinv, fun j q hj => (hstacks j q hj).1, fun j q hj => (hstacks j q hj).2, h.placed,
            h.holds, h.apart⟩
        exact hsafe.phase (p := .scheduled frame) hc.2 (fun _ => hlock trivial) fun _ _ => id
      | x :: rest =>
        obtain ⟨i, p, rfl, hp, hw⟩ := h.inv.queued x (by rw [hq]; exact List.mem_cons_self)
        obtain ⟨t, he', -, -, hi, hother⟩ := scheduleFromIrq_switch h.inv c frame hq hp
        rw [he'] at he
        cases he
        have hplaced : (Phase.scheduled p.contextSp).Placed env i.val (m.sp c) :=
          h.saved i p hp hw
        exact h.put frame (hlock trivial) hinv hq hleft hp hi hother (fun _ => hc.2) hplaced
          fun j => .inl
    next => cases hs
  next hphase =>
    rw [hphase] at hc hlock
    split at hs
    next entry top sched he =>
      cases hs
      have hinv := h.inv.start hc.1 he
      match hq : m.sched.table.queue with
      | [] =>
        rw [startOnCpu_nil c hq] at he
        cases he
      | x :: rest =>
        obtain ⟨i, p, rfl, hp, -⟩ := h.inv.queued x (by rw [hq]; exact List.mem_cons_self)
        obtain ⟨t, he', -, -, hi, hother⟩ := startOnCpu_cons h.inv c hq hp
        rw [he'] at he
        cases he
        have hsp : At env invalidIdx (m.sp c) := hc.1 ▸ hc.2
        have hplaced : (Phase.startScheduled p.stackTop).Placed env i.val (m.sp c) :=
          ⟨hsp, h.tops i p hp⟩
        refine h.put 0 (hlock trivial) hinv hq hleft hp hi (fun j hj => ?_)
          (fun hne => absurd hc.1 hne) hplaced fun j => .inl
        rw [hother j hj, hc.1, if_neg (slot_ne_invalidIdx j).symm]
    next => cases hs
  next => cases hs

/-- Every step keeps the invariant, with a critical section only where the head of the queue has
been left. -/
theorem Safe.step (h : Safe env m) (hs : StepLeft env m m') : Safe env m' := by
  obtain ⟨a, hs, hleft⟩ := hs
  cases a with
  | create name entry mode parent =>
    simp only [Machine.step] at hs
    split at hs
    · cases hs
      exact h.create name entry mode parent
    · cases hs
  | move c sp =>
    simp only [Machine.step] at hs
    split at hs
    next hsame =>
      -- The code moves the stack pointer on the stack that it is on.
      cases hs
      refine h.advance c rfl (fun _ _ => rfl) (fun d hd => Function.update_of_ne hd _ _) ?_
        h.holds fun i hi => .inl ?_
      · rw [show (m.setSp c sp).sp c = sp from Function.update_self ..]
        exact (h.placed c).move hsame
      · rw [show (m.setSp c sp).sp c = sp from Function.update_self ..] at hi
        exact (hsame i).mp hi
    next => cases hs
  | irq c =>
    have hc := h.placed c
    simp only [Machine.step] at hs
    split at hs
    next hphase =>
      rw [hphase] at hc
      split at hs
      next hsame =>
        cases hs
        -- The frame ends where the interrupted code left the stack pointer.
        have hframe : m.sp c - trapFrameSize + trapFrameSize = m.sp c :=
          Nat.sub_add_cancel hsame.1
        refine h.goto ⟨At.of_sameStack hc hsame.2, ?_⟩ id fun i hi => .inl ((hsame.2 i).mp hi)
        rw [hframe]
        exact hc
      next => cases hs
    next => cases hs
  | acquire c =>
    have hc := h.placed c
    simp only [Machine.step] at hs
    split at hs
    next frame hphase hlock =>
      cases hs
      rw [hphase] at hc
      exact h.phase hc (fun _ => rfl) fun d _ hd => by rw [hlock] at hd; cases hd
    next => cases hs
  | start c =>
    have hc := h.placed c
    simp only [Machine.step] at hs
    split at hs
    next hphase hlock =>
      rw [hphase] at hc
      split at hs
      next hcur =>
        cases hs
        exact h.phase ⟨hcur, hc⟩ (fun _ => rfl) fun d _ hd => by rw [hlock] at hd; cases hd
      next => cases hs
    next => cases hs
  | schedule c => exact h.schedule (hleft c rfl) hs
  | release c =>
    have hc := h.placed c
    have hlock := h.holds c
    -- Only the CPU that held the lock loses it.
    have hother : m.lock = some c → ∀ d, d ≠ c → m.lock = some d → none = some d := by
      intro hheld d hd hm
      rw [hheld] at hm
      exact absurd (Option.some.inj hm).symm hd
    simp only [Machine.step] at hs
    split at hs
    next next hphase =>
      cases hs
      rw [hphase] at hc hlock
      exact h.phase hc False.elim (hother (hlock trivial))
    next top hphase =>
      cases hs
      rw [hphase] at hc hlock
      exact h.phase hc False.elim (hother (hlock trivial))
    next => cases hs
  | finish c =>
    have hc := h.placed c
    simp only [Machine.step] at hs
    split at hs
    next next hphase =>
      cases hs
      rw [hphase] at hc
      exact h.phase hc False.elim fun _ _ => id
    next => cases hs
  | switch c =>
    have hc := h.placed c
    simp only [Machine.step] at hs
    split at hs
    next next hphase =>
      -- The frame is on the stack of the process that is now current.
      cases hs
      rw [hphase] at hc
      exact h.goto hc id fun i hi => .inr ((hc i).mp hi)
    next top hphase =>
      cases hs
      rw [hphase] at hc
      exact h.goto hc.2 id fun i hi => .inr ((hc.2 i).mp hi)
    next => cases hs

/-- The machines of the runs from boot with critical sections only where the head of the queue has
been left. -/
def RunLeft (b : Boot env) (m : Machine) : Prop := Relation.ReflTransGen (StepLeft env) (boot b) m

/-- The invariant holds in these runs. -/
theorem RunLeft.safe {b : Boot env} (h : RunLeft b m) : Safe env m := by
  induction h with
  | refl => exact Safe.boot b
  | tail _ hs ih => exact ih.step hs

/-- The machine that a list of actions leads to. -/
def exec (env : Env) : List Action → Machine → Option Machine
  | [], m => some m
  | a :: as, m => (m.step env a).bind (exec env as)

/-- A list of actions that goes through is a run. -/
theorem reflTransGen_of_exec {as : List Action} (h : exec env as m = some m') :
    Relation.ReflTransGen (Step env) m m' := by
  induction as generalizing m with
  | nil =>
    cases h
    exact .refl
  | cons a as ih =>
    obtain ⟨m₁, ha, has⟩ := Option.bind_eq_some_iff.mp h
    exact .head ⟨a, ha⟩ (ih has)

/-- From the end of the critical section, nothing keeps a CPU from the stack that it goes to. -/
theorem goes_to {c : Cpu} {idx : ℕ} (hp : (∃ next, m.phase c = .scheduled next ∧
      At env idx (next + trapFrameSize)) ∨ ∃ top, m.phase c = .startScheduled top ∧ At env idx top) :
    ∃ m', Relation.ReflTransGen (Step env) m m' ∧ At env idx (m'.sp c) ∧
      ∀ d, d ≠ c → m'.sp d = m.sp d := by
  rcases hp with ⟨next, hp, hat⟩ | ⟨top, hp, hat⟩
  · have hrun : exec env [.release c, .finish c, .switch c] m =
        some ((((({ m with lock := none }.setPhase c (.finishing next)).setPhase c
          (.returned next)).setSp c (next + trapFrameSize)).setPhase c .running)) := by
      simp [exec, Machine.step, hp, setPhase, setSp]
    refine ⟨_, reflTransGen_of_exec hrun, ?_, fun d hd => Function.update_of_ne hd _ _⟩
    show At env idx (Function.update m.sp c _ c)
    rwa [Function.update_self]
  · have hrun : exec env [.release c, .switch c] m =
        some (((({ m with lock := none }.setPhase c (.startFinishing top)).setSp c top).setPhase c
          .running)) := by
      simp [exec, Machine.step, hp, setPhase, setSp]
    refine ⟨_, reflTransGen_of_exec hrun, ?_, fun d hd => Function.update_of_ne hd _ _⟩
    show At env idx (Function.update m.sp c _ c)
    rwa [Function.update_self]

/-- The critical section of `schedule_from_irq`. -/
theorem step_locked {c : Cpu} {frame next : ℕ} {s : Sched} (hp : m.phase c = .locked frame)
    (he : scheduleFromIrq c frame m.sched = .ok (next, s)) :
    m.step env (.schedule c) = some ({ m with sched := s }.setPhase c (.scheduled next)) := by
  simp only [Machine.step, hp, he]

/-- The critical section of `start_on_cpu`. -/
theorem step_startLocked {c : Cpu} {entry top : ℕ} {s : Sched} (hp : m.phase c = .startLocked)
    (he : startOnCpu c m.sched = .ok ((entry, top), s)) :
    m.step env (.schedule c) = some ({ m with sched := s }.setPhase c (.startScheduled top)) := by
  simp only [Machine.step, hp, he]

/-- In the critical section, a CPU can take the process at the head of the queue, and is then bound
for its stack. -/
theorem Safe.takes_head (h : Safe env m) {c : Cpu} {i : Fin maxProcs} {rest : List ℕ}
    (hq : m.sched.table.queue = i.val :: rest)
    (hc : (∃ frame, m.phase c = .locked frame) ∨ m.phase c = .startLocked) :
    ∃ m', m.step env (.schedule c) = some m' ∧ m'.sp = m.sp ∧
      ((∃ next, m'.phase c = .scheduled next ∧ At env i.val (next + trapFrameSize)) ∨
        ∃ top, m'.phase c = .startScheduled top ∧ At env i.val top) := by
  obtain ⟨j, p, hj, hp, hw⟩ := h.inv.queued i.val (by rw [hq]; exact List.mem_cons_self)
  rw [← Fin.ext hj] at hp
  rcases hc with ⟨frame, hphase⟩ | hphase
  · obtain ⟨t, he, -⟩ := scheduleFromIrq_switch h.inv c frame hq hp
    refine ⟨_, step_locked hphase he, rfl, .inl ⟨p.contextSp, ?_, h.saved i p hp hw⟩⟩
    exact Function.update_self ..
  · obtain ⟨t, he, -⟩ := startOnCpu_cons h.inv c hq hp
    refine ⟨_, step_startLocked hphase he, rfl, .inr ⟨p.stackTop, ?_, h.tops i p hp⟩⟩
    exact Function.update_self ..

/-- A critical section that starts before the head of the queue has been left can end with two CPUs
on one stack. -/
theorem Safe.collides (h : Safe env m) {c : Cpu}
    (hc : (∃ frame, m.phase c = .locked frame) ∨ m.phase c = .startLocked)
    (hleft : ¬ m.HeadLeft env) :
    ∃ m', Relation.ReflTransGen (Step env) m m' ∧ ¬ m'.Exclusive env := by
  simp only [HeadLeft, not_forall, not_not] at hleft
  obtain ⟨i, d, hhead, ⟨next, hd⟩, hon⟩ := hleft
  obtain ⟨rest, hq⟩ := List.head?_eq_some_iff.mp hhead
  have hdc : d ≠ c := by
    rintro rfl
    rcases hc with ⟨frame, hc⟩ | hc <;> rcases hd with hd | hd <;> rw [hc] at hd <;> cases hd
  obtain ⟨m₁, hs, hsp, hphase⟩ := h.takes_head hq hc
  obtain ⟨m₂, hrun, hat, hother⟩ := goes_to hphase
  refine ⟨m₂, .head ⟨_, hs⟩ hrun, fun hex => ?_⟩
  refine hex c d i hdc.symm ((hat i).mpr rfl) ?_
  rw [hother d hdc, hsp]
  exact hon

end Machine

open Machine

/-- While critical sections run only when no CPU is leaving the stack of the process at the head of
the queue, no two CPUs are on the stack of one process. A critical section that runs too early
leads to two CPUs on one stack. -/
theorem exclusive_of_headLeft (env : Env) (b : Boot env) :
    (∀ m, RunLeft b m → m.Exclusive env) ∧
      ∀ m c, RunLeft b m → ((∃ frame, m.phase c = .locked frame) ∨ m.phase c = .startLocked) →
        ¬ m.HeadLeft env →
          ∃ m', Relation.ReflTransGen (Step env) m m' ∧ ¬ m'.Exclusive env :=
  ⟨fun _ hm => hm.safe.exclusive, fun _ _ hm hc hleft => hm.safe.collides hc hleft⟩

/-- Boot stacks at the bottom of memory. -/
def sampleBoot : Boot sampleEnv := ⟨fun _ => 0, by decide⟩

/-- `exclusive_of_headLeft` at the end of boot. -/
theorem exclusive_of_headLeft_boot : (boot sampleBoot).Exclusive sampleEnv :=
  (exclusive_of_headLeft sampleEnv sampleBoot).1 _ .refl

/-- Three processes on two CPUs. The timer interrupt of CPU 0 queues the first process and drops
the lock. That of CPU 1 takes the first process from the queue before CPU 0 is off its stack. -/
def collision : List Action :=
  [.create "a" 0 .user none, .create "b" 0 .user none, .create "c" 0 .user none,
    .start 0, .schedule 0, .release 0, .switch 0, .start 1, .schedule 1, .release 1, .switch 1,
    .irq 0, .acquire 0, .schedule 0, .release 0,
    .irq 1, .acquire 1, .schedule 1, .release 1, .finish 1, .switch 1]

/-- `collision` goes through and ends with CPU 0 and CPU 1 on the first stack. -/
theorem exec_collision : ((exec sampleEnv collision (boot sampleBoot)).map fun m =>
    (decide (OnStack sampleEnv 0 (m.sp 0)), decide (OnStack sampleEnv 0 (m.sp 1)))) =
      some (true, true) := by
  decide +kernel

/-- Two CPUs can be on the stack of one process. -/
theorem not_exclusive : ¬ ∀ m, Relation.ReflTransGen (Step sampleEnv) (boot sampleBoot) m →
    m.Exclusive sampleEnv := by
  intro h
  obtain ⟨m, hm, hon⟩ := Option.map_eq_some_iff.mp exec_collision
  rw [Prod.mk.injEq, decide_eq_true_eq, decide_eq_true_eq] at hon
  exact h m (reflTransGen_of_exec hm) 0 1 0 (by decide) hon.1 hon.2

end Ralix.Kernel
