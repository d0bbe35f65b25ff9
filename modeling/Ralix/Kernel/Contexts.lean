import Ralix.Kernel.Multicore

/-!
# Processes have their registers to themselves

Each process is a context: the registers that it would find in a CPU of its own. It changes by what the
process itself does, and by the answers to its system calls (`Move`). The machine keeps it in a CPU, in
the frame of a handler that interrupted it, or in the frame that the scheduler noted, and moves it
between these at every tick. `contexts_kept` says that the moves are all that counts. In every run, what
the machine keeps of a process is what its own moves make of the context it was created with.

It takes that no CPU goes to a stack that another one has not left yet (`Clear`). The scheduler does not
see to it. By `apart_iff` this is just what it takes for no handler to be overtaken on its stack.
-/

namespace Ralix.Kernel

open Lib Lib.AArch64 Arch

/-! ## Contexts -/

/-- The registers of a process, without those of the vector unit. -/
structure Context where
  x : Fin 31 → BitVec 64
  sp : BitVec 64
  pc : BitVec 64
  pstate : BitVec 64
  spEl0 : BitVec 64

/-- The context that a CPU is in. -/
def contextOf (c : Core) : Context := ⟨c.x, c.sp, c.pc, c.pstate, c.spEl0⟩

/-- The context that a frame keeps. -/
def contextIn (f : TrapFrame) (a : BitVec 64) : Context := ⟨f.x, a + tfSize, f.elr, f.spsr, f.spEl0⟩

/-- The context in the frame at an address. -/
def savedAt (mem : Mem) (a : BitVec 64) : Context := contextIn (.load mem a) a

/-- What a process does to its context. -/
inductive Move where
  /-- Its code runs on. -/
  | run (x : Context)
  /-- It calls the kernel. -/
  | svc
  /-- It gets an answer. -/
  | result (w : BitVec 64)
  /-- It is started anew, on a CPU's way out of `start_on_cpu`. -/
  | boot (x : Context)
  /-- It goes to its entry point, and to its stack. -/
  | enter

/-- The context after a move. -/
def Move.apply (x : Context) : Move → Context
  | run y => y
  | svc => { x with pc := x.pc + 4 }
  | result w => { x with x := fun i => if i.val = 0 then w else x.x i }
  | boot y => y
  | enter => { x with sp := arg1 x.x, pc := arg0 x.x }

namespace Multicore

/-- The context that a CPU is in or has interrupted. -/
def onCpu (m : Multicore) (c : Cpu) : Context :=
  match m.stage c with
  | .boot | .process => contextOf (m.core c)
  | .irq | .sync _ | .leaving _ => savedAt m.mem (framePtr (m.core c))

/-- The CPU where the process of a slot is current. -/
def cpuOf (m : Multicore) (i : Fin maxProcs) : Option Cpu :=
  (List.finRange maxCpus).find? fun c => m.slotOf c = some i

/-- What the machine keeps of the process of a slot. -/
def context (m : Multicore) (i : Fin maxProcs) : Option Context :=
  (m.sched.table.slots i).map fun p =>
    (m.cpuOf i).elim (savedAt m.mem (BitVec.ofNat 64 p.contextSp)) m.onCpu

/-- The moves of the process of a slot in a step. -/
def moves (i : Fin maxProcs) (t : Transition Multicore CoreEvent) : List Move :=
  match t.act with
  | .run c core _ => if t.pre.slotOf c = some i then [.run (contextOf core)] else []
  | .start c core _ => if t.post.slotOf c = some i then [.boot (contextOf core)] else []
  | .enter c => if t.pre.slotOf c = some i then [.enter] else []
  | .sync c esr => if t.pre.slotOf c = some i ∧ exceptionClass esr = ecSvc then [.svc] else []
  | .answer c _ _ core _ =>
    if t.pre.slotOf c = some i then
      [.result (arg0 (TrapFrame.load t.post.mem (framePtr core)).x)]
    else []
  | _ => []

/-- The condition on a step: no CPU goes to a stack that another one is still leaving. -/
def Clear (m : Multicore) : CoreEvent → Prop
  | .resume c => ∀ d, d ≠ c → m.stage d ≠ .leaving (m.onStack c)
  | .enter c => ∀ d, d ≠ c → ∀ i, m.slotOf c = some i → m.stage d ≠ .leaving (.proc i)
  | _ => True

/-! ## Slots and CPUs -/

section Slots

variable {m m' : Multicore} {c d : Cpu} {i : Fin maxProcs} {p : Process}

/-- The slot of a CPU, by `CURRENT`. -/
theorem slotOf_eq_some : m.slotOf c = some i ↔ m.sched.current c = i.val := by
  unfold slotOf
  constructor
  · intro h
    split at h
    · cases h
      rfl
    · cases h
  · intro h
    rw [dif_pos (h ▸ i.isLt), Option.some.injEq]
    exact Fin.ext h

/-- A process is current on one CPU at most. -/
theorem slotOf_inj (h : Placed m.sched) (hc : m.slotOf c = some i) (hd : m.slotOf d = some i) :
    c = d := h.current_inj (slotOf_eq_some.mp hc) (slotOf_eq_some.mp hd)

/-- A current slot holds a process. -/
theorem exists_slot (h : Placed m.sched) (hc : m.slotOf c = some i) :
    ∃ p, m.sched.table.slots i = some p := h.exists_current (slotOf_eq_some.mp hc)

/-- A CPU without a process has no index in `CURRENT`. -/
theorem slotOf_eq_none (h : Placed m.sched) : m.slotOf c = none ↔ m.sched.current c = invalidIdx := by
  constructor
  · intro hnone
    refine (h.current c).resolve_right fun ⟨k, r, hk, _⟩ => ?_
    rw [slotOf_eq_some.mpr hk] at hnone
    cases hnone
  · intro hinvalid
    rw [slotOf, dif_neg (by rw [hinvalid]; decide)]

/-- The context of a process that is current on a CPU. -/
theorem context_current (h : Placed m.sched) (hc : m.slotOf c = some i)
    (hp : m.sched.table.slots i = some p) : m.context i = some (m.onCpu c) := by
  have hcpu : m.cpuOf i = some c := by
    unfold cpuOf
    cases hfind : (List.finRange maxCpus).find? fun c => m.slotOf c = some i with
    | none =>
      have hno := List.find?_eq_none.mp hfind c (List.mem_finRange c)
      simp [hc] at hno
    | some d =>
      have hd : m.slotOf d = some i := by simpa using List.find?_some hfind
      rw [slotOf_inj h hc hd]
  rw [context, hp, Option.map_some, hcpu, Option.elim_some]

/-- The context of a process that waits. -/
theorem context_waiting (hwait : ∀ c, m.slotOf c ≠ some i) (hp : m.sched.table.slots i = some p) :
    m.context i = some (savedAt m.mem (BitVec.ofNat 64 p.contextSp)) := by
  have hcpu : m.cpuOf i = none := List.find?_eq_none.mpr fun c _ => by simp [hwait c]
  rw [context, hp, Option.map_some, hcpu, Option.elim_none]

end Slots

/-! ## Frames -/

section Frames

variable {mem mem' : Mem} {a : BitVec 64}

/-- A frame keeps the context that its words are of. -/
theorem savedAt_congr (h : ∀ b ∈ frameWords a, mem' b = mem b) : savedAt mem' a = savedAt mem a := by
  rw [savedAt, TrapFrame.load_congr h, savedAt]

/-- The frame that is saved keeps the context, from where it goes on. -/
theorem savedAt_save (c : Core) (mem : Mem) :
    savedAt (runs irqVectorSave (c.takeIrq, mem)).2 (c.sp - tfSize) = contextOf c := by
  obtain ⟨hx, helr, hspsr, hspEl0⟩ := save_holds c mem
  rw [savedAt, contextIn, hx, helr, hspsr, hspEl0, BitVec.sub_add_cancel, contextOf]

/-- The core that is restored is in the context of the frame. -/
theorem contextOf_restore (c : Core) (mem : Mem) :
    contextOf (runs irqVectorRestore (c, mem)).1 = savedAt mem (framePtr c) := by
  rw [restore_eq]
  rfl

/-- The offsets of the words of a frame are apart. -/
theorem nodup_frameWords (a : BitVec 64) : (frameWords a).Nodup := by
  have hoff : ((List.range 36).map fun i => BitVec.ofNat 64 (8 * i)).Nodup := by decide
  have hinj : Function.Injective (a + ·) := fun _ _ he => (BitVec.add_right_inj a).mp he
  have hmap := hoff.map hinj
  rwa [List.map_map] at hmap

/-- The keys of the stores of a frame. -/
theorem keys_storeFrame (a : BitVec 64) (f : TrapFrame) :
    ((List.range 36).map fun i => (a + BitVec.ofNat 64 (8 * i), frameWord f i)).map Prod.fst =
      frameWords a := by
  rw [List.map_map]
  rfl

/-- A frame that is written is read. -/
theorem load_storeFrame (mem : Mem) (a : BitVec 64) (f : TrapFrame) :
    TrapFrame.load (storeFrame mem a f) a = f := by
  have hword : ∀ i < 36, storeFrame mem a f (a + BitVec.ofNat 64 (8 * i)) = frameWord f i := by
    intro i hi
    refine applyWrites_of_mem_nodup ?_ (List.mem_map_of_mem
      (f := fun i => (a + BitVec.ofNat 64 (8 * i), frameWord f i)) (List.mem_range.mpr hi))
    rw [keys_storeFrame]
    exact nodup_frameWords a
  obtain ⟨x, pad, elr, spsr, spEl0, pad2⟩ := f
  rw [TrapFrame.load, TrapFrame.mk.injEq]
  refine ⟨funext fun i => ?_, hword 31 (by omega), hword 32 (by omega), hword 33 (by omega),
    hword 34 (by omega), hword 35 (by omega)⟩
  rw [hword i (by omega), frameWord, dif_pos i.isLt]

/-- To write a frame leaves everything else alone. -/
theorem storeFrame_of_notMem {b : BitVec 64} (f : TrapFrame) (h : b ∉ frameWords a) :
    storeFrame mem a f b = mem b := by
  refine applyWrites_of_notMem ?_
  rwa [keys_storeFrame]

end Frames

/-! ## The invariant -/

/-- A CPU is in a handler, or on its way out of one. -/
def InHandler : Stage → Prop
  | .boot | .process => False
  | .irq | .sync _ | .leaving _ => True

/-- Where the stacks and the frames are. -/
structure Inv (L : Stacks) (m : Multicore) : Prop where
  housed : Housed m.sched
  /-- A process is on its own stack, or on that of the CPU where it was started. -/
  home : ∀ i, m.stack i = .proc i ∨ ∃ c, m.stack i = .boot c
  /-- A slot's stack is its own until a process is started there. -/
  empty : ∀ i, m.sched.table.slots i = none → m.stack i = .proc i
  /-- A CPU's stack is that of one process at most, -/
  booted : ∀ i j c, m.stack i = .boot c → m.stack j = .boot c → i = j
  /-- and of none while the CPU is on its way to `start_on_cpu`. -/
  unbooted : ∀ c i, m.slotOf c = none → m.stack i ≠ .boot c
  /-- The frame that the scheduler noted for a process that waits is on its stack. -/
  waits : ∀ i p, m.sched.table.slots i = some p → (∀ c, m.slotOf c ≠ some i) →
    L.On (m.stack i) (BitVec.ofNat 64 p.contextSp)
  /-- So is the frame of a process that is interrupted, or about to be resumed. -/
  framed : ∀ c i, m.slotOf c = some i → InHandler (m.stage c) →
    L.On (m.stack i) (framePtr (m.core c))
  /-- No other CPU is on a stack that is being left. -/
  apart : ∀ c k, m.stage c = .leaving k → ¬m.Used c k

section Invariant

variable {L : Stacks} {env : Env} {m m' : Multicore} {c d : Cpu} {i j : Fin maxProcs} {p : Process}

namespace Inv

/-- Processes are on stacks of their own. -/
theorem stack_inj (h : Inv L m) (hij : m.stack i = m.stack j) : i = j := by
  rcases h.home i with hi | ⟨c, hi⟩
  · rcases h.home j with hj | ⟨d, hj⟩
    · exact StackId.proc.inj (hi.symm.trans (hij.trans hj))
    · exact absurd (hi.symm.trans (hij.trans hj)) nofun
  · exact h.booted i j c hi (hij.symm.trans hi)

/-- The stack of a CPU with a process is that of the process. -/
theorem onStack_some (hc : m.slotOf c = some i) : m.onStack c = m.stack i := by
  rw [onStack, hc, Option.elim_some]

/-- The stack of a CPU without a process is its own. -/
theorem onStack_none (hc : m.slotOf c = none) : m.onStack c = .boot c := by
  rw [onStack, hc, Option.elim_none]

/-- A process that is not current on a CPU is not on its stack. -/
theorem stack_ne (h : Inv L m) (hc : m.slotOf c ≠ some i) : m.stack i ≠ m.onStack c := by
  intro he
  cases hslot : m.slotOf c with
  | none =>
    rw [onStack_none hslot] at he
    exact h.unbooted c i hslot he
  | some j =>
    rw [onStack_some hslot] at he
    exact hc (hslot.trans (congrArg some (h.stack_inj he).symm))

/-- The CPUs are on different stacks. -/
theorem onStack_inj (h : Inv L m) (hcd : m.onStack c = m.onStack d) : c = d := by
  cases hc : m.slotOf c with
  | none =>
    rw [onStack_none hc] at hcd
    cases hd : m.slotOf d with
    | none =>
      rw [onStack_none hd] at hcd
      exact StackId.boot.inj hcd
    | some j =>
      rw [onStack_some hd] at hcd
      exact absurd hcd.symm (h.unbooted c j hc)
  | some i =>
    rw [onStack_some hc] at hcd
    by_contra hne
    refine h.stack_ne (c := d) (i := i) (fun hd => hne ?_) hcd
    exact slotOf_inj h.housed.placed hc hd

/-- A stack that a CPU is not on keeps its words. -/
theorem confined (h : Inv L m) {mem : Mem} (hmem : L.Confined (m.onStack c) m.mem mem)
    (hc : m.slotOf c ≠ some i) : ∀ a ∈ L.region (m.stack i), mem a = m.mem a :=
  hmem _ (h.stack_ne hc)

/-- A process keeps its context if nothing is done to its slot, its CPU, and its stack. -/
theorem context_congr (h : Inv L m) (hplaced : Placed m'.sched)
    (hslot : (m'.sched.table.slots i).map (·.contextSp) = (m.sched.table.slots i).map (·.contextSp))
    (hcur : ∀ c, m'.slotOf c = some i ↔ m.slotOf c = some i)
    (hcpu : ∀ c, m.slotOf c = some i → m'.stage c = m.stage c ∧ m'.core c = m.core c)
    (hmem : ∀ a ∈ L.region (m.stack i), m'.mem a = m.mem a) : m'.context i = m.context i := by
  cases hp : m.sched.table.slots i with
  | none =>
    rw [hp, Option.map_none, Option.map_eq_none_iff] at hslot
    rw [context, context, hp, hslot, Option.map_none, Option.map_none]
  | some p =>
    rw [hp, Option.map_some, Option.map_eq_some_iff] at hslot
    obtain ⟨p', hp', hsp⟩ := hslot
    by_cases hc : ∃ c, m.slotOf c = some i
    · obtain ⟨c, hc⟩ := hc
      obtain ⟨hstage, hcore⟩ := hcpu c hc
      rw [context_current hplaced ((hcur c).mpr hc) hp', context_current h.housed.placed hc hp]
      have hframed := h.framed c i hc
      have hsaved : InHandler (m.stage c) →
          savedAt m'.mem (framePtr (m.core c)) = savedAt m.mem (framePtr (m.core c)) :=
        fun hin => savedAt_congr fun a ha => hmem a (hframed hin a ha)
      rw [onCpu, onCpu, hstage, hcore]
      cases hs : m.stage c with
      | boot => rfl
      | process => rfl
      | irq => exact congrArg some (hsaved (hs ▸ True.intro))
      | sync esr => exact congrArg some (hsaved (hs ▸ True.intro))
      | leaving k => exact congrArg some (hsaved (hs ▸ True.intro))
    · have hwait : ∀ c, m.slotOf c ≠ some i := fun c hc' => hc ⟨c, hc'⟩
      have hwait' : ∀ c, m'.slotOf c ≠ some i := fun c hc' => hc ⟨c, (hcur c).mp hc'⟩
      rw [context_waiting hwait' hp', context_waiting hwait hp, hsp]
      exact congrArg some (savedAt_congr fun a ha => hmem a (h.waits i p hp hwait a ha))

end Inv

/-! ## The scheduler, by CPUs and frames -/

/-- The frames that the scheduler noted. -/
def noted (m : Multicore) (j : Fin maxProcs) : Option ℕ :=
  (m.sched.table.slots j).map (·.contextSp)

/-- A CPU took a process that was on none. -/
structure Taken (m m' : Multicore) (c : Cpu) (i : Fin maxProcs) : Prop where
  waited : ∀ d, m.slotOf d ≠ some i
  slot : m'.slotOf c = some i
  other : ∀ d, d ≠ c → m'.slotOf d = m.slotOf d

/-- What a tick does: it notes the frame of the process that was interrupted, and goes back to it, or
takes another one and goes to its frame. -/
structure Ticked (m m' : Multicore) (c : Cpu) (frame r : ℕ) : Prop where
  noted : ∀ j, m'.noted j = if m.slotOf c = some j then (m.noted j).map fun _ => frame else m.noted j
  next : (∀ d, m'.slotOf d = m.slotOf d) ∧ r = frame ∨
    ∃ i, Taken m m' c i ∧ m.noted i = some r

/-- A CPU that took a process, by `CURRENT`. -/
theorem taken_of_update (hwait : ∀ d, m.sched.current d ≠ i.val)
    (hcur : m'.sched.current = Function.update m.sched.current c i.val) : Taken m m' c i where
  waited d hd := hwait d (slotOf_eq_some.mp hd)
  slot := by rw [slotOf_eq_some, hcur, Function.update_self]
  other d hd := by rw [slotOf, slotOf, hcur, Function.update_of_ne hd]

/-- What `schedule_from_irq` does. -/
theorem ticked (m' : Multicore) (h : Placed m.sched) {frame r : ℕ}
    (hs : scheduleFromIrq c frame m.sched = .ok (r, m'.sched)) : Ticked m m' c frame r := by
  have hcur : ∀ j, m.slotOf c = some j ↔ m.sched.current c = j.val := fun j => slotOf_eq_some
  have hschedules := h.schedules hs
  generalize hs' : m'.sched = s' at hschedules
  cases hschedules with
  | @resume t hpass hqueue hslots =>
    refine ⟨fun j => ?_, .inl ⟨fun d => by rw [slotOf, slotOf, hs'], rfl⟩⟩
    rw [noted, hs', hslots j]
    simp only [hcur]
    split
    · rw [Multicore.noted, Option.map_map, Option.map_map]
      rfl
    · rfl
  | @switch t i p pre post htakes hqueue htaken hother =>
    have hwait : ∀ d, m.sched.current d ≠ i.val := h.not_current htakes.mem
    refine ⟨fun j => ?_, .inr ⟨i, taken_of_update hwait (by rw [hs']), ?_⟩⟩
    · rw [noted, hs']
      simp only [hcur]
      by_cases hji : j = i
      · rw [hji, if_neg (hwait c), Multicore.noted, htakes.slot, htaken]
        rfl
      · rw [hother j hji]
        split
        · have hleave : ∀ p : Process, (leave frame p).contextSp = frame := by
            intro p
            unfold leave suspend
            split
            · rfl
            · rfl
          rw [Multicore.noted, Option.map_map, Option.map_map]
          exact congrArg (Option.map · _) (funext hleave)
        · rfl
    · rw [Multicore.noted, htakes.slot]
      rfl

/-- What `start_on_cpu` does: it takes a process, and no frame. -/
theorem started (m' : Multicore) (h : Placed m.sched) {r : ℕ × ℕ}
    (hs : startOnCpu c m.sched = .ok (r, m'.sched)) (hi : m'.sched.current c = i.val) : Taken m m' c i ∧ (∀ j, m'.noted j = m.noted j) ∧
      ∃ p, m.sched.table.slots i = some p := by
  have hstarts := h.starts hs
  generalize hs' : m'.sched = s' at hstarts hi
  cases hstarts with
  | @start t i' p pre post htakes hqueue htaken hother =>
    obtain rfl : i' = i := by
      have hval : Function.update m.sched.current c i'.val c = i.val := hi
      rw [Function.update_self] at hval
      exact Fin.ext hval
    refine ⟨taken_of_update (h.not_current htakes.mem) (by rw [hs']), fun j => ?_, p, htakes.slot⟩
    rw [noted, noted, hs']
    by_cases hji : j = i'
    · rw [hji, htakes.slot, htaken]
      rfl
    · exact congrArg _ (hother j hji)

/-- A call on descriptors leaves CPUs and frames alone. -/
theorem edits_same (m' : Multicore) {target : Fin maxProcs → Process → Prop}
    (h : Edits target m.sched m'.sched) :
    (∀ j, m'.noted j = m.noted j) ∧ ∀ d, m'.slotOf d = m.slotOf d := by
  generalize hs' : m'.sched = s' at h
  cases h with
  | none => exact ⟨fun j => by rw [noted, noted, hs'], fun d => by rw [slotOf, slotOf, hs']⟩
  | edit i p fds hp hacts =>
    refine ⟨fun j => ?_, fun d => by rw [slotOf, slotOf, hs']⟩
    rw [noted, hs']
    exact map_slots_setFds hp fds (fun q => rfl) j

/-! ## The steps keep the invariant -/

/-- A CPU without a process is on its way to `start_on_cpu`. -/
theorem slotOf_of_back (h : m.back c = .boot) : m.slotOf c = none := by
  unfold back at h
  cases hslot : m.slotOf c with
  | none => rfl
  | some i =>
    rw [hslot] at h
    cases h

namespace Inv

/-- No other CPU is leaving the stack of one that is not in a handler. -/
theorem not_leaving (h : Inv L m) (hc : ∀ l, m.stage c ≠ .leaving l) (hd : d ≠ c) :
    m.stage d ≠ .leaving (m.onStack c) := fun hstage =>
  h.apart d _ hstage ⟨c, hd.symm, hc, rfl⟩

/-- A step of one CPU keeps the CPUs apart, if it leaves no stack but the one that it was on, and comes
back to none that another CPU is leaving. -/
theorem apart_of (h : Inv L m) (hstage : ∀ d, d ≠ c → m'.stage d = m.stage d)
    (honStack : ∀ d, d ≠ c → m'.onStack d = m.onStack d)
    (hleaves : ∀ k, m'.stage c = .leaving k → k = m.onStack c)
    (hclear : (∀ l, m'.stage c ≠ .leaving l) → ∀ d, d ≠ c → m.stage d ≠ .leaving (m'.onStack c)) :
    ∀ e k, m'.stage e = .leaving k → ¬m'.Used e k := by
  rintro e k he ⟨d, hde, hd, rfl⟩
  by_cases hec : e = c
  · subst hec
    refine hde (h.onStack_inj ?_)
    rw [← honStack d hde]
    exact hleaves _ he
  · rw [hstage e hec] at he
    by_cases hdc : d = c
    · subst hdc
      exact hclear hd e hec he
    · refine h.apart e _ he ⟨d, hde, fun l hl => hd l ?_, (honStack d hdc).symm⟩
      rw [hstage d hdc, hl]

/-- A step of one CPU that leaves the processes where they are keeps the invariant. -/
theorem of_same (h : Inv L m) (housed : Housed m'.sched) (hstack : m'.stack = m.stack)
    (hnoted : ∀ j, m'.noted j = m.noted j) (hslot : ∀ d, m'.slotOf d = m.slotOf d)
    (hother : ∀ d, d ≠ c → m'.stage d = m.stage d ∧ m'.core d = m.core d)
    (hframed : ∀ i, m.slotOf c = some i → InHandler (m'.stage c) →
      L.On (m.stack i) (framePtr (m'.core c)))
    (hleaves : ∀ k, m'.stage c = .leaving k → k = m.onStack c)
    (hclear : (∀ l, m'.stage c ≠ .leaving l) → ∀ d, d ≠ c → m.stage d ≠ .leaving (m.onStack c)) :
    Inv L m' := by
  have honStack : ∀ d, m'.onStack d = m.onStack d := fun d => by
    rw [onStack, onStack, hslot, hstack]
  refine ⟨housed, hstack ▸ h.home, fun i hi => ?_, hstack ▸ h.booted, fun d i hd => ?_,
    fun i p hp hwait => ?_, fun d i hd hin => ?_, h.apart_of (fun d hd => (hother d hd).1)
      (fun d _ => honStack d) hleaves fun hl d hd => honStack c ▸ hclear hl d hd⟩
  · have hnone := hnoted i
    rw [noted, hi, Option.map_none, eq_comm, noted, Option.map_eq_none_iff] at hnone
    rw [hstack]
    exact h.empty i hnone
  · rw [hstack]
    exact h.unbooted d i (hslot d ▸ hd)
  · have hsome := hnoted i
    rw [noted, hp, Option.map_some, eq_comm, noted, Option.map_eq_some_iff] at hsome
    obtain ⟨q, hq, hsp⟩ := hsome
    rw [hstack, ← hsp]
    exact h.waits i q hq fun d => hslot d ▸ hwait d
  · rw [hslot] at hd
    rw [hstack]
    by_cases hdc : d = c
    · subst hdc
      exact hframed i hd hin
    · rw [(hother d hdc).1] at hin
      rw [(hother d hdc).2]
      exact h.framed d i hd hin

/-- The machine after code of a CPU keeps the invariant. -/
theorem set (h : Inv L m) {core : Core} {mem : Mem} {stage : Stage}
    (hframed : ∀ i, m.slotOf c = some i → InHandler stage → L.On (m.stack i) (framePtr core))
    (hleaves : ∀ k, stage = .leaving k → k = m.onStack c)
    (hclear : (∀ l, stage ≠ .leaving l) → ∀ d, d ≠ c → m.stage d ≠ .leaving (m.onStack c)) :
    Inv L (m.set c core mem stage) := by
  refine h.of_same (c := c) h.housed rfl (fun j => rfl) (fun d => rfl) (fun d hd => ?_) ?_ ?_ ?_
  · exact ⟨set_stage_of_ne hd, set_core_of_ne hd⟩
  · rw [set_stage, set_core]
    exact hframed
  · rw [set_stage]
    exact hleaves
  · rw [set_stage]
    exact hclear

/-- A slot without a process had none before a tick. -/
theorem slots_of_noted {i : Fin maxProcs} (hi : m.noted i = none) : m.sched.table.slots i = none :=
  Option.map_eq_none_iff.mp hi

/-- A tick keeps the invariant. -/
theorem tick (h : Inv L m) {core : Core} {mem : Mem} {r : ℕ} {sched : Sched}
    (hstage : m.stage c = .irq)
    (hs : scheduleFromIrq c (framePtr (m.core c)).toNat m.sched = .ok (r, sched))
    (hr : framePtr core = BitVec.ofNat 64 r) :
    Inv L { m.set c core mem (.leaving (m.onStack c)) with sched } := by
  generalize hm' : ({ m.set c core mem (.leaving (m.onStack c)) with sched } : Multicore) = m'
  have hsched : m'.sched = sched := hm' ▸ rfl
  have hstack : m'.stack = m.stack := hm' ▸ rfl
  have hstagec : m'.stage c = .leaving (m.onStack c) := hm' ▸ Function.update_self ..
  have hcorec : m'.core c = core := hm' ▸ Function.update_self ..
  have hother : ∀ d, d ≠ c → m'.stage d = m.stage d ∧ m'.core d = m.core d :=
    fun d hd => hm' ▸ ⟨Function.update_of_ne hd .., Function.update_of_ne hd ..⟩
  obtain ⟨hnoted, hnext⟩ := ticked m' h.housed.placed (hsched ▸ hs)
  have hslot : ∀ d, d ≠ c → m'.slotOf d = m.slotOf d := by
    rcases hnext with ⟨hsame, -⟩ | ⟨i, htaken, -⟩
    · exact fun d _ => hsame d
    · exact htaken.other
  -- The frame that is noted for the interrupted process is the one that it was saved in.
  have hframe : BitVec.ofNat 64 (framePtr (m.core c)).toNat = framePtr (m.core c) := by
    rw [BitVec.ofNat_toNat, BitVec.setWidth_eq]
  have hinterrupted : ∀ i, m.slotOf c = some i → L.On (m.stack i) (framePtr (m.core c)) :=
    fun i hi => h.framed c i hi (hstage ▸ True.intro)
  have hsome : ∀ j, m'.noted j = none → m.noted j = none := by
    intro j hj
    rw [hnoted] at hj
    split at hj
    · exact Option.map_eq_none_iff.mp hj
    · exact hj
  have hnone : ∀ d, m'.slotOf d = none → m.slotOf d = none := by
    intro d hd
    by_cases hdc : d = c
    · rcases hnext with ⟨hsame, -⟩ | ⟨i, htaken, -⟩
      · exact hsame d ▸ hd
      · rw [hdc, htaken.slot] at hd
        cases hd
    · exact hslot d hdc ▸ hd
  refine ⟨hsched ▸ h.housed.schedule hs, hstack ▸ h.home, fun i hi => ?_, hstack ▸ h.booted,
    fun d i hd => hstack ▸ h.unbooted d i (hnone d hd), fun i p hp hwait => ?_,
    fun d i hd hin => ?_, h.apart_of (fun d hd => (hother d hd).1) (fun d hd => ?_)
      (fun k hk => ?_) fun hl => absurd hstagec (hl _)⟩
  · rw [hstack]
    refine h.empty i (slots_of_noted (hsome i ?_))
    rw [noted, hi, Option.map_none]
  · have hp' : m'.noted i = some p.contextSp := by rw [noted, hp, Option.map_some]
    rw [hnoted] at hp'
    rw [hstack]
    split at hp'
    next hi =>
      obtain ⟨-, -, hsp⟩ := Option.map_eq_some_iff.mp hp'
      rw [← hsp, hframe]
      exact hinterrupted i hi
    next hi =>
      obtain ⟨q, hq, hsp⟩ := Option.map_eq_some_iff.mp hp'
      rw [← hsp]
      refine h.waits i q hq fun d hd => ?_
      by_cases hdc : d = c
      · exact hi (hdc ▸ hd)
      · exact hwait d ((hslot d hdc).trans hd)
  · rw [hstack]
    by_cases hdc : d = c
    · subst hdc
      rw [hcorec, hr]
      rcases hnext with ⟨hsame, rfl⟩ | ⟨i', htaken, hr'⟩
      · rw [hframe]
        exact hinterrupted i (hsame d ▸ hd)
      · obtain rfl : i' = i := Option.some.inj (htaken.slot.symm.trans hd)
        obtain ⟨q, hq, hsp⟩ := Option.map_eq_some_iff.mp hr'
        rw [← hsp]
        exact h.waits i' q hq htaken.waited
    · rw [(hother d hdc).1] at hin
      rw [(hother d hdc).2]
      exact h.framed d i (hslot d hdc ▸ hd) hin
  · rw [onStack, onStack, hslot d hd, hstack]
  · exact (Stage.leaving.inj (hstagec.symm.trans hk)).symm

/-- A CPU that goes to another stack keeps the invariant. Its process comes from a stack that no other
one is on, or is not current anywhere. -/
theorem moved (h : Inv L m) {k : StackId} (housed : Housed m'.sched)
    (hslotc : m'.slotOf c = some i) (hslot : ∀ d, d ≠ c → m'.slotOf d = m.slotOf d)
    (hwaited : ∀ d, d ≠ c → m.slotOf d ≠ some i) (hnoted : ∀ j, m'.noted j = m.noted j)
    (hsome : m.noted i ≠ none) (hstagec : m'.stage c = .process)
    (hother : ∀ d, d ≠ c → m'.stage d = m.stage d ∧ m'.core d = m.core d)
    (hwait : ∀ j, j ≠ i → (∀ d, m'.slotOf d ≠ some j) → ∀ d, m.slotOf d ≠ some j)
    (hstack : m'.stack = Function.update m.stack i k)
    (hhome : k = .proc i ∨ k = .boot c ∧ m.slotOf c = none)
    (hclear : ∀ d, d ≠ c → m.stage d ≠ .leaving k) : Inv L m' := by
  have hself : m'.stack i = k := by rw [hstack, Function.update_self]
  have hne : ∀ j, j ≠ i → m'.stack j = m.stack j := fun j hj => by
    rw [hstack, Function.update_of_ne hj]
  have hboot : ∀ d j, j ≠ i → m'.stack i = .boot d → m'.stack j ≠ .boot d := by
    intro d j hj hd
    rw [hself] at hd
    rcases hhome with rfl | ⟨rfl, hnone⟩
    · cases hd
    · cases hd
      rw [hne j hj]
      exact h.unbooted c j hnone
  have honStack : ∀ d, d ≠ c → m'.onStack d = m.onStack d := by
    intro d hd
    rw [onStack, onStack, hslot d hd]
    cases hj : m.slotOf d with
    | none => rfl
    | some j =>
      have hji : j ≠ i := fun e => hwaited d hd (e ▸ hj)
      exact hne j hji
  have honStackc : m'.onStack c = k := by rw [onStack_some hslotc, hself]
  refine ⟨housed, fun j => ?_, fun j hj => ?_, fun j j' d hj hj' => ?_, fun d j hd => ?_,
    fun j p hp hwait' => ?_, fun d j hd hin => ?_, h.apart_of (fun d hd => (hother d hd).1) honStack
      (fun l hl => ?_) fun _ d hd => honStackc ▸ hclear d hd⟩
  · by_cases hji : j = i
    · rw [hji, hself]
      exact hhome.imp_right fun hb => ⟨c, hb.1⟩
    · rw [hne j hji]
      exact h.home j
  · have hnone : m.noted j = none := by rw [← hnoted, noted, hj, Option.map_none]
    have hji : j ≠ i := fun e => hsome (e ▸ hnone)
    rw [hne j hji]
    exact h.empty j (slots_of_noted hnone)
  · by_cases hji : j = i
    · by_cases hji' : j' = i
      · rw [hji, hji']
      · exact absurd hj' (hboot d j' hji' (hji ▸ hj))
    · by_cases hji' : j' = i
      · exact absurd hj (hboot d j hji (hji' ▸ hj'))
      · exact h.booted j j' d (hne j hji ▸ hj) (hne j' hji' ▸ hj')
  · have hdc : d ≠ c := by
      rintro rfl
      rw [hslotc] at hd
      cases hd
    by_cases hji : j = i
    · rw [hji, hself]
      rcases hhome with rfl | ⟨rfl, -⟩
      · nofun
      · exact fun he => hdc (StackId.boot.inj he).symm
    · rw [hne j hji]
      exact h.unbooted d j (hslot d hdc ▸ hd)
  · have hji : j ≠ i := fun e => hwait' c (e ▸ hslotc)
    have hp' := hnoted j
    rw [noted, hp, Option.map_some, eq_comm, noted, Option.map_eq_some_iff] at hp'
    obtain ⟨q, hq, hsp⟩ := hp'
    rw [hne j hji, ← hsp]
    exact h.waits j q hq (hwait j hji hwait')
  · have hdc : d ≠ c := by
      rintro rfl
      rw [hstagec] at hin
      exact hin
    rw [(hother d hdc).1] at hin
    rw [hslot d hdc] at hd
    have hji : j ≠ i := fun e => hwaited d hdc (e ▸ hd)
    rw [hne j hji, (hother d hdc).2]
    exact h.framed d j hd hin
  · rw [hstagec] at hl
    cases hl

/-- A creation keeps the invariant: the frame of the new process is on its stack. -/
theorem create (h : Inv L m) {name : String} {entry stackTop : ℕ} {mode : ProcessMode}
    {parent : Option ℕ} {pid : ℕ} {sched : Sched} {mem : Mem}
    (hs : createWithMode env name entry stackTop mode parent m.sched = (some pid, sched))
    (hfree : freeSlot m.sched.table = some i) (hp : sched.table.slots i = some p)
    (hon : L.On (.proc i) (BitVec.ofNat 64 p.contextSp)) : Inv L { m with sched, mem } := by
  have hnone := slots_of_freeSlot hfree
  have hhoused := h.housed.create env name entry stackTop mode parent
  obtain ⟨-, t, he, -, -, -, -, -, -, -, -, -, hother⟩ := createWithMode_some env name entry stackTop
    mode parent hfree (h.housed.placed.length_lt (h.housed.placed.free hnone).1)
  rw [he] at hs hhoused
  cases hs
  -- What there was is as it was.
  have hold : ∀ j q, j ≠ i → t.slots j = some q → m.sched.table.slots j = some q :=
    fun j q hj hq => hother j hj ▸ hq
  refine ⟨hhoused, h.home, fun j hj => ?_, h.booted, h.unbooted, fun j q hq hwait => ?_, h.framed,
    h.apart⟩
  · by_cases hji : j = i
    · rw [hji] at hj
      exact absurd (hj.symm.trans hp) nofun
    · exact h.empty j ((hother j hji).symm.trans hj)
  · by_cases hji : j = i
    · subst hji
      obtain rfl := Option.some.inj (hp.symm.trans hq)
      have hhome := h.empty j hnone
      rw [show (⟨m.core, mem, m.stage, _, m.stack⟩ : Multicore).stack j = .proc j from hhome]
      exact hon
    · exact h.waits j q (hold j q hji hq) hwait

/-- The invariant holds before the first process is created. -/
theorem boot (L : Stacks) (core : Cpu → Core) (mem : Mem) : Inv L (boot core mem) where
  housed := Housed.init
  home _ := .inl rfl
  empty _ _ := rfl
  booted _ _ _ hi := by cases hi
  unbooted _ _ _ hi := by cases hi
  waits _ _ hp := by cases hp
  framed _ _ _ hin := hin.elim
  apart _ _ hk := by cases hk

/-- The stage that a CPU comes back to is none of a handler. -/
theorem back_not_leaving (m : Multicore) (c : Cpu) (l : StackId) : m.back c ≠ .leaving l := by
  unfold back
  cases m.slotOf c with
  | none => nofun
  | some i => nofun

/-- Nor is it one in which a frame is kept. -/
theorem back_not_inHandler (m : Multicore) (c : Cpu) : ¬InHandler (m.back c) := by
  unfold back
  cases m.slotOf c with
  | none => exact id
  | some i => exact id

/-- Every step keeps the invariant, if no CPU goes to a stack that another one is still leaving. -/
theorem step {e : CoreEvent} (h : Inv L m) (hclear : m.Clear e) (hs : Step L env m e m') :
    Inv L m' := by
  cases hs with
  | @run c core mem hstage hmem =>
    refine h.set (fun i _ hin => ?_) (fun k hk => ?_) fun hl d hd => h.not_leaving hl hd
    · exact absurd (hstage ▸ hin) (back_not_inHandler m c)
    · exact absurd (hstage.symm.trans hk) (back_not_leaving m c k)
  | @start c i core mem r sched hstage hback hs hi hx0 hx1 hmem =>
    have hnone := slotOf_of_back hback
    obtain ⟨htaken, hnoted, p, hp⟩ := started
      { m.set c core mem .process with sched, stack := Function.update m.stack i (.boot c) }
      h.housed.placed hs hi
    refine h.moved (h.housed.start hs) htaken.slot htaken.other (fun d _ => htaken.waited d) hnoted
      ?_ (Function.update_self ..)
      (fun d hd => ⟨Function.update_of_ne hd .., Function.update_of_ne hd ..⟩)
      (fun j hj hwait d hd => ?_) rfl (.inr ⟨rfl, hnone⟩) fun d hd => ?_
    · rw [noted, hp]
      nofun
    · by_cases hdc : d = c
      · rw [hdc, hnone] at hd
        cases hd
      · exact hwait d ((htaken.other d hdc).trans hd)
    · have hc : ∀ l, m.stage c ≠ .leaving l := fun l hl => absurd (hstage.symm.trans hl) nofun
      exact onStack_none hnone ▸ h.not_leaving hc hd
  | @enter c i hstage hslot =>
    obtain ⟨p, hp⟩ := exists_slot h.housed.placed hslot
    refine h.moved h.housed hslot (fun d _ => rfl) (fun d hd hd' => hd ?_) (fun j => rfl) ?_
      (Function.update_self ..)
      (fun d hd => ⟨Function.update_of_ne hd .., Function.update_of_ne hd ..⟩)
      (fun j _ hwait => hwait) rfl (.inl rfl) fun d hd => hclear d hd i hslot
    · exact slotOf_inj h.housed.placed hd' hslot
    · rw [noted, hp]
      nofun
  | create hs hfree hp hon => exact h.create hs hfree hp hon
  | @irq c hstage hon =>
    refine h.set (fun i hi _ => ?_) nofun fun _ d hd => h.not_leaving (fun l hl => ?_) hd
    · rw [(save_eq (m.core c) m.mem).1]
      exact onStack_some hi ▸ hon
    · exact back_not_leaving m c l (hstage.symm.trans hl)
  | @spurious c core mem hstage hmem hframe hcore =>
    refine h.set (fun i hi _ => ?_) (fun k hk => (Stage.leaving.inj hk).symm)
      fun hl => absurd rfl (hl _)
    rw [hcore]
    exact h.framed c i hi (hstage ▸ True.intro)
  | tick hstage hmem hframe hs hr => exact h.tick hstage hs hr
  | @sync c esr hstage hback hon =>
    refine h.set (fun i hi _ => ?_) nofun fun _ d hd => h.not_leaving (fun l hl => ?_) hd
    · have hptr : framePtr (runs syncVectorSave (takeSync esr (m.core c), m.mem)).1 =
          (m.core c).sp - tfSize := (save_eq _ m.mem).1
      rw [hptr]
      exact onStack_some hi ▸ hon
    · exact absurd (hstage.symm.trans hl) nofun
  | @answer c esr far branch core mem sched hstage hmem hs hret hcore =>
    have hedits := syncHandler_edits hs
    obtain ⟨hnoted, hslot⟩ :=
      edits_same { m.set c core mem (.leaving (m.onStack c)) with sched } hedits
    have hstagec : ({ m.set c core mem (.leaving (m.onStack c)) with sched } : Multicore).stage c =
        .leaving (m.onStack c) := Function.update_self ..
    refine h.of_same (c := c) (h.housed.edits hedits) rfl hnoted hslot (fun d hd =>
      ⟨Function.update_of_ne hd .., Function.update_of_ne hd ..⟩) (fun i hi _ => ?_) (fun k hk => ?_)
      fun hl => absurd hstagec (hl _)
    · rw [show ({ m.set c core mem _ with sched } : Multicore).core c = core from
        Function.update_self .., hcore]
      exact h.framed c i hi (hstage ▸ True.intro)
    · exact (Stage.leaving.inj (hstagec.symm.trans hk)).symm
  | @resume c k is hstage his =>
    refine h.set (fun i _ hin => ?_) (fun k hk => ?_) fun _ d hd => hclear d hd
    · exact absurd hin (back_not_inHandler m c)
    · exact absurd hk (back_not_leaving m c k)
  | derail hstage hused => exact absurd hused (h.apart _ _ hstage)

end Inv

/-! ## A step is its moves -/

/-- What a step makes of the context of a process: what its moves do. -/
def Moves (m m' : Multicore) (e : CoreEvent) (i : Fin maxProcs) : Prop :=
  ∀ x, m.context i = some x → m'.context i = some ((moves i ⟨m, e, m'⟩).foldl Move.apply x)

/-- A step without moves keeps the context. -/
theorem Moves.of_eq {e : CoreEvent} (hmoves : moves i ⟨m, e, m'⟩ = [])
    (h : m'.context i = m.context i) : Moves m m' e i := by
  intro x hx
  rw [hmoves, h, hx, List.foldl_nil]

/-- Code that writes to a frame on a stack writes to no other stack. -/
theorem confined_of_frame {k : StackId} {f : BitVec 64} {mem mem' : Mem} (hon : L.On k f)
    (h : ∀ a, a ∉ frameWords f → mem' a = mem a) : L.Confined k mem mem' := fun _ hl a ha =>
  h a fun hmem => L.disjoint hl ha (hon a hmem)

/-- A CPU that has a process and is not in a handler is in the context of the process. -/
theorem onCpu_back (hc : m.slotOf c = some i) (hstage : m.stage c = m.back c) :
    m.onCpu c = contextOf (m.core c) := by
  rw [onCpu, hstage, back, hc]
  rfl

/-- A CPU that comes back to a process is in its context. -/
theorem onCpu_set_back (hc : m.slotOf c = some i) (core : Core) (mem : Mem) :
    (m.set c core mem (m.back c)).onCpu c = contextOf core := by
  rw [onCpu, set_stage, set_core, back, hc]
  rfl

/-- A CPU that is in a handler keeps the context in the frame. -/
theorem onCpu_inHandler (hin : InHandler (m.stage c)) :
    m.onCpu c = savedAt m.mem (framePtr (m.core c)) := by
  unfold onCpu
  cases hs : m.stage c with
  | boot => exact (hs ▸ hin : InHandler .boot).elim
  | process => exact (hs ▸ hin : InHandler .process).elim
  | irq => rfl
  | sync esr => rfl
  | leaving k => rfl

namespace Inv

/-- After code of a CPU, the processes of the other CPUs have the contexts that they had. -/
theorem context_other (h : Inv L m) {core : Core} {mem : Mem} {stage : Stage}
    (hmem : L.Confined (m.onStack c) m.mem mem) (hc : m.slotOf c ≠ some i) :
    (m.set c core mem stage).context i = m.context i := by
  refine h.context_congr h.housed.placed rfl (fun d => Iff.rfl) (fun d hd => ?_) (h.confined hmem hc)
  have hdc : d ≠ c := fun e => hc (e ▸ hd)
  exact ⟨set_stage_of_ne hdc, set_core_of_ne hdc⟩

/-- The process of a CPU after code of the CPU. -/
theorem context_set (h : Inv L m) {core : Core} {mem : Mem} {stage : Stage}
    (hc : m.slotOf c = some i) (hp : m.sched.table.slots i = some p) :
    (m.set c core mem stage).context i = some ((m.set c core mem stage).onCpu c) :=
  context_current h.housed.placed hc hp

/-- An exception keeps the context of the CPU's process in the frame. -/
theorem context_taken (h : Inv L m) (core : Core) {stage : Stage} (hin : InHandler stage)
    (hon : L.On (m.onStack c) (core.sp - tfSize)) (hp : m.sched.table.slots i = some p) :
    (m.set c (runs irqVectorSave (core.takeIrq, m.mem)).1
      (runs irqVectorSave (core.takeIrq, m.mem)).2 stage).context i =
        if m.slotOf c = some i then some (contextOf core) else m.context i := by
  split
  next hc =>
    rw [h.context_set hc hp, onCpu_inHandler]
    · rw [set_core, set_mem, (save_eq core m.mem).1, savedAt_save]
    · rwa [set_stage]
  next hc => exact h.context_other (confined_of_frame hon fun a ha => save_frame ha) hc

/-- A handler that leaves the frame alone and returns it keeps the context. -/
theorem context_handled (h : Inv L m) {core : Core} {mem : Mem} {k : StackId}
    (hin : InHandler (m.stage c)) (hmem : L.Confined (m.onStack c) m.mem mem)
    (hframe : ∀ a ∈ frameWords (framePtr (m.core c)), mem a = m.mem a)
    (hcore : framePtr core = framePtr (m.core c)) (hp : m.sched.table.slots i = some p) :
    (m.set c core mem (.leaving k)).context i = m.context i := by
  by_cases hc : m.slotOf c = some i
  · rw [h.context_set hc hp, context_current h.housed.placed hc hp, onCpu_inHandler hin,
      onCpu_inHandler]
    · rw [set_core, set_mem, hcore, savedAt_congr hframe]
    · rw [set_stage]
      exact True.intro
  · exact h.context_other hmem hc

/-- A tick keeps every context, wherever it is kept afterwards. -/
theorem context_tick (h : Inv L m) {core : Core} {mem : Mem} {r : ℕ} {sched : Sched}
    (hstage : m.stage c = .irq) (hmem : L.Confined (m.onStack c) m.mem mem)
    (hframe : ∀ a ∈ frameWords (framePtr (m.core c)), mem a = m.mem a)
    (hs : scheduleFromIrq c (framePtr (m.core c)).toNat m.sched = .ok (r, sched))
    (hr : framePtr core = BitVec.ofNat 64 r) (hp : m.sched.table.slots i = some p) :
    ({ m.set c core mem (.leaving (m.onStack c)) with sched } : Multicore).context i =
      m.context i := by
  generalize hm' : ({ m.set c core mem (.leaving (m.onStack c)) with sched } : Multicore) = m'
  have hsched : m'.sched = sched := hm' ▸ rfl
  have hplaced' : Placed m'.sched := hsched ▸ (h.housed.schedule hs).placed
  have hmem' : m'.mem = mem := hm' ▸ rfl
  have hin : InHandler (m.stage c) := hstage ▸ True.intro
  have hin' : InHandler (m'.stage c) := by
    rw [← hm', show ({ m.set c core mem _ with sched } : Multicore).stage c = _ from
      Function.update_self ..]
    exact True.intro
  have hcorec : m'.core c = core := hm' ▸ Function.update_self ..
  have hother : ∀ d, d ≠ c → m'.stage d = m.stage d ∧ m'.core d = m.core d :=
    fun d hd => hm' ▸ ⟨Function.update_of_ne hd .., Function.update_of_ne hd ..⟩
  obtain ⟨hnoted, hnext⟩ := ticked m' h.housed.placed (hsched ▸ hs)
  have hback : BitVec.ofNat 64 (framePtr (m.core c)).toNat = framePtr (m.core c) := by
    rw [BitVec.ofNat_toNat, BitVec.setWidth_eq]
  have hsaved : savedAt mem (framePtr (m.core c)) = savedAt m.mem (framePtr (m.core c)) :=
    savedAt_congr hframe
  obtain ⟨p', hp'⟩ : ∃ p', m'.sched.table.slots i = some p' := by
    rw [← Option.isSome_iff_exists, ← Option.isSome_map, ← noted, hnoted i]
    split <;> simp [noted, hp]
  have hnotedp' : m'.noted i = some p'.contextSp := by rw [noted, hp', Option.map_some]
  have hnotedp : m.noted i = some p.contextSp := by rw [noted, hp, Option.map_some]
  by_cases hc : m.slotOf c = some i
  · rw [context_current h.housed.placed hc hp, onCpu_inHandler hin]
    rcases hnext with ⟨hsame, rfl⟩ | ⟨j, htaken, -⟩
    · -- The interrupted process goes on.
      rw [context_current hplaced' ((hsame c).trans hc) hp', onCpu_inHandler hin', hmem', hcorec, hr,
        hback, hsaved]
    · -- It waits, and its frame is noted.
      have hji : j ≠ i := fun e => htaken.waited c (e ▸ hc)
      have hwait : ∀ d, m'.slotOf d ≠ some i := by
        intro d hd
        by_cases hdc : d = c
        · rw [hdc, htaken.slot] at hd
          exact hji (Option.some.inj hd)
        · exact hdc (slotOf_inj h.housed.placed ((htaken.other d hdc).symm.trans hd) hc)
      have hsp := hnotedp'.symm.trans ((hnoted i).trans (if_pos hc))
      rw [hnotedp, Option.map_some, Option.some.injEq] at hsp
      rw [context_waiting hwait hp', hmem', hsp, hback, hsaved]
  · have hsp := hnotedp'.symm.trans ((hnoted i).trans (if_neg hc))
    by_cases htakes : m'.slotOf c = some i
    · -- The process that is taken goes on from the frame that was noted.
      rcases hnext with ⟨hsame, -⟩ | ⟨j, htaken, hr'⟩
      · exact absurd ((hsame c).symm.trans htakes) hc
      obtain rfl : j = i := Option.some.inj (htaken.slot.symm.trans htakes)
      rw [hnotedp, Option.some.injEq] at hr'
      rw [context_current hplaced' htakes hp', onCpu_inHandler hin', hmem', hcorec, hr, ← hr',
        context_waiting htaken.waited hp]
      refine congrArg some (savedAt_congr fun a ha => h.confined hmem hc a ?_)
      exact h.waits j p hp htaken.waited a ha
    · refine h.context_congr hplaced' ((hnoted i).trans (if_neg hc)) (fun d => ?_) (fun d hd => ?_) ?_
      · by_cases hdc : d = c
        · rw [hdc]
          exact iff_of_false htakes hc
        · rcases hnext with ⟨hsame, -⟩ | ⟨j, htaken, -⟩
          · rw [hsame]
          · rw [htaken.other d hdc]
      · exact hother d fun e => hc (e ▸ hd)
      · rw [hmem']
        exact h.confined hmem hc

/-- A process that is started is in the context of the CPU. -/
theorem moves_start (h : Inv L m) {core : Core} {mem : Mem} {r : ℕ × ℕ} {sched : Sched}
    {j : Fin maxProcs} (hnone : m.slotOf c = none) (hs : startOnCpu c m.sched = .ok (r, sched))
    (hj : sched.current c = j.val) (hmem : L.Confined (.boot c) m.mem mem) :
    Moves m { m.set c core mem .process with sched, stack := Function.update m.stack j (.boot c) }
      (.start c core mem) i := by
  generalize hm' : ({ m.set c core mem .process with
    sched, stack := Function.update m.stack j (.boot c) } : Multicore) = m'
  have hsched : m'.sched = sched := hm' ▸ rfl
  have hmem' : m'.mem = mem := hm' ▸ rfl
  have hplaced' : Placed m'.sched := hsched ▸ (h.housed.start hs).placed
  have hstagec : m'.stage c = .process := hm' ▸ Function.update_self ..
  have hcorec : m'.core c = core := hm' ▸ Function.update_self ..
  obtain ⟨htaken, hnoted, -⟩ := started m' h.housed.placed (hsched ▸ hs) (hsched ▸ hj)
  have hc : m.slotOf c ≠ some i := fun hc => absurd (hnone.symm.trans hc) nofun
  by_cases hi : m'.slotOf c = some i
  · intro x _
    obtain ⟨p', hp'⟩ := exists_slot hplaced' hi
    simp only [moves, hi, if_true, List.foldl_cons, List.foldl_nil, Move.apply]
    rw [context_current hplaced' hi hp', onCpu, hstagec, hcorec]
  · refine .of_eq (if_neg hi) (h.context_congr hplaced' (hnoted i) (fun d => ?_) (fun d hd => ?_) ?_)
    · by_cases hdc : d = c
      · rw [hdc]
        exact iff_of_false hi hc
      · rw [htaken.other d hdc]
    · have hdc : d ≠ c := fun e => hc (e ▸ hd)
      exact hm' ▸ ⟨Function.update_of_ne hdc .., Function.update_of_ne hdc ..⟩
    · rw [hmem']
      exact h.confined (onStack_none hnone ▸ hmem) hc

/-- To create a process leaves the others alone. -/
theorem context_create (h : Inv L m) {name : String} {entry stackTop : ℕ} {mode : ProcessMode}
    {parent : Option ℕ} {pid : ℕ} {sched : Sched} {j : Fin maxProcs} {a : BitVec 64} {f : TrapFrame}
    (hs : createWithMode env name entry stackTop mode parent m.sched = (some pid, sched))
    (hfree : freeSlot m.sched.table = some j) (hon : L.On (.proc j) a)
    (hp : m.sched.table.slots i = some p) :
    ({ m with sched, mem := storeFrame m.mem a f } : Multicore).context i = m.context i := by
  have hnone := slots_of_freeSlot hfree
  have hhoused := h.housed.create env name entry stackTop mode parent
  obtain ⟨-, t, he, -, -, -, -, -, -, -, -, -, hother⟩ := createWithMode_some env name entry stackTop
    mode parent hfree (h.housed.placed.length_lt (h.housed.placed.free hnone).1)
  rw [he] at hs hhoused
  cases hs
  have hij : i ≠ j := by
    rintro rfl
    rw [hp] at hnone
    cases hnone
  refine h.context_congr hhoused.placed (congrArg _ (hother i hij)) (fun d => Iff.rfl)
    (fun d _ => ⟨rfl, rfl⟩) fun b hb => storeFrame_of_notMem f fun hmem => ?_
  have hne : m.stack i ≠ .proc j := fun he => hij (h.stack_inj (he.trans (h.empty j hnone).symm))
  exact L.disjoint hne hb (hon b hmem)

/-- An answer is a move of the process that gets it. -/
theorem moves_answer (h : Inv L m) {esr far : BitVec 64} {branch : SyncBranch} {core : Core}
    {mem : Mem} {sched : Sched} (hstage : m.stage c = .sync esr)
    (hmem : L.Confined (m.onStack c) m.mem mem)
    (hs : syncHandler c (bytesOf m.mem) esr far (.load m.mem (framePtr (m.core c))) m.sched =
      .ok (branch, sched))
    (hret : branch.Returns (.load mem (framePtr (m.core c))))
    (hcore : framePtr core = framePtr (m.core c)) (hp : m.sched.table.slots i = some p) :
    Moves m { m.set c core mem (.leaving (m.onStack c)) with sched } (.answer c far branch core mem)
      i := by
  generalize hm' : ({ m.set c core mem (.leaving (m.onStack c)) with sched } : Multicore) = m'
  have hsched : m'.sched = sched := hm' ▸ rfl
  have hmem' : m'.mem = mem := hm' ▸ rfl
  have hedits : Edits (fun i _ => m.sched.current c = i.val) m.sched m'.sched :=
    hsched ▸ syncHandler_edits hs
  have hplaced' := (h.housed.edits hedits).placed
  obtain ⟨hnoted, hslot⟩ := edits_same m' hedits
  have hin' : InHandler (m'.stage c) := by
    rw [← hm', show ({ m.set c core mem _ with sched } : Multicore).stage c = _ from
      Function.update_self ..]
    exact True.intro
  have hcorec : m'.core c = core := hm' ▸ Function.update_self ..
  by_cases hc : m.slotOf c = some i
  · intro x hx
    obtain ⟨p', hp'⟩ := exists_slot hplaced' ((hslot c).trans hc)
    rw [context_current h.housed.placed hc hp, onCpu_inHandler (hstage ▸ True.intro),
      Option.some.injEq] at hx
    -- The frame is the one from before, with a result in `x0`.
    obtain ⟨w, hw⟩ : ∃ w, TrapFrame.load mem (framePtr (m.core c)) =
        ret (.load m.mem (framePtr (m.core c))) w := by
      have hanswers := syncHandler_answers hs
      generalize TrapFrame.load mem (framePtr (m.core c)) = frame at hret ⊢
      cases hret with
      | done frame =>
        cases hanswers
        exact ⟨_, rfl⟩
      | call service resume ans =>
        cases hanswers
        exact ⟨_, rfl⟩
    simp only [moves, hc, if_true, List.foldl_cons, List.foldl_nil, Move.apply]
    rw [context_current hplaced' ((hslot c).trans hc) hp', onCpu_inHandler hin', hmem', hcorec, hcore,
      ← hx, savedAt, hw]
    rfl
  · refine .of_eq (if_neg hc) (h.context_congr hplaced' (hnoted i) (fun d => by rw [hslot])
      (fun d hd => ?_) ?_)
    · have hdc : d ≠ c := fun e => hc (e ▸ hd)
      exact hm' ▸ ⟨Function.update_of_ne hdc .., Function.update_of_ne hdc ..⟩
    · rw [hmem']
      exact h.confined hmem hc

/-- What a step makes of the context of a process is what its moves do. -/
theorem moves_step {e : CoreEvent} (h : Inv L m) (hs : Step L env m e m')
    (hp : m.sched.table.slots i = some p) : Moves m m' e i := by
  cases hs with
  | @run c core mem hstage hmem =>
    by_cases hc : m.slotOf c = some i
    · intro x _
      simp only [moves, hc, if_true, List.foldl_cons, List.foldl_nil, Move.apply]
      rw [h.context_set hc hp, hstage, onCpu_set_back hc]
    · exact .of_eq (if_neg hc) (h.context_other hmem hc)
  | @start c j core mem r sched hstage hback hs hj hx0 hx1 hmem =>
    exact h.moves_start (slotOf_of_back hback) hs hj hmem
  | @enter c j hstage hslot =>
    -- The stack that a process is on is not in its context.
    have hset : ({ m.set c (startFirst (m.core c)) m.mem .process with
        stack := Function.update m.stack j (.proc j) } : Multicore).context i =
      (m.set c (startFirst (m.core c)) m.mem .process).context i := rfl
    by_cases hc : m.slotOf c = some i
    · intro x hx
      rw [context_current h.housed.placed hc hp, onCpu, hstage, Option.some.injEq] at hx
      simp only [moves, hc, if_true, List.foldl_cons, List.foldl_nil, Move.apply]
      rw [hset, h.context_set hc hp, onCpu, set_stage, set_core, ← hx]
      rfl
    · exact .of_eq (if_neg hc) (hset.trans (h.context_other (fun _ _ _ _ => rfl) hc))
  | create hs hfree hp' hon => exact .of_eq rfl (h.context_create hs hfree hon hp)
  | @irq c hstage hon =>
    have hin : InHandler .irq := True.intro
    refine .of_eq rfl ((h.context_taken (m.core c) hin hon hp).trans ?_)
    split
    next hc => rw [context_current h.housed.placed hc hp, onCpu_back hc hstage]
    next => rfl
  | @spurious c core mem hstage hmem hframe hcore =>
    exact .of_eq rfl (h.context_handled (hstage ▸ True.intro) hmem hframe hcore hp)
  | tick hstage hmem hframe hs hr => exact .of_eq rfl (h.context_tick hstage hmem hframe hs hr hp)
  | @sync c esr hstage hback hon =>
    have hin : InHandler (.sync esr) := True.intro
    have htaken := h.context_taken { m.core c with
      pc := if exceptionClass esr = ecSvc then (m.core c).pc + 4 else (m.core c).pc } hin hon hp
    intro x hx
    refine htaken.trans ?_
    split
    next hc =>
      rw [context_current h.housed.placed hc hp, onCpu_back hc (hstage.trans hback.symm),
        Option.some.injEq] at hx
      by_cases hsvc : exceptionClass esr = ecSvc
      · simp [moves, hc, hsvc, Move.apply, contextOf, ← hx]
      · simp [moves, hsvc, contextOf, ← hx]
    next hc =>
      simp [moves, hc, hx]
  | answer hstage hmem hs hret hcore => exact h.moves_answer hstage hmem hs hret hcore hp
  | @resume c k is hstage his =>
    -- The two vectors end in the same way.
    obtain rfl : is = irqVectorRestore := his.elim id id
    refine .of_eq rfl ?_
    by_cases hc : m.slotOf c = some i
    · rw [h.context_set hc hp, onCpu_set_back hc, contextOf_restore,
        context_current h.housed.placed hc hp, onCpu_inHandler (hstage ▸ True.intro)]
    · refine h.context_other (fun _ _ a _ => ?_) hc
      rw [restore_eq]
  | derail hstage hused => exact absurd hused (h.apart _ _ hstage)

end Inv

/-! ## Runs -/

/-- No handler goes astray while the CPUs are apart. -/
theorem Inv.not_derail (h : Inv L m) {core : Core} {mem : Mem} {stage : Stage} :
    ¬Step L env m (.derail c core mem stage) m' := by
  intro hs
  cases hs with
  | derail hstage hused => exact h.apart _ _ hstage hused

/-- A slot has a context if the scheduler noted a frame for it. -/
theorem context_eq_none : m.context i = none ↔ m.noted i = none := by
  rw [context, noted, Option.map_eq_none_iff, Option.map_eq_none_iff]

/-- The context that a process is created with. -/
def newContext (env : Env) (i : Fin maxProcs) (entry stackTop : ℕ) : Context :=
  contextIn (newFrame entry)
    (BitVec.ofNat 64 (initContext (if stackTop = 0 then env.ownStackTop i else stackTop)))

/-- A slot without a process makes no moves. -/
theorem Inv.moves_nil {e : CoreEvent} (h : Inv L m) (hs : Step L env m e m')
    (hnone : m.sched.table.slots i = none) : moves i ⟨m, e, m'⟩ = [] := by
  have hslot : ∀ c, m.slotOf c ≠ some i := by
    intro c hc
    obtain ⟨p, hp⟩ := exists_slot h.housed.placed hc
    rw [hnone] at hp
    cases hp
  cases hs with
  | @start c j core mem r sched hstage hback hs hj hx0 hx1 hmem =>
    obtain ⟨htaken, -, p, hp⟩ := started
      { m.set c core mem .process with sched, stack := Function.update m.stack j (.boot c) }
      h.housed.placed hs hj
    refine if_neg fun hi => ?_
    obtain rfl : j = i := Option.some.inj (htaken.slot.symm.trans hi)
    rw [hnone] at hp
    cases hp
  | @run c core mem hstage hmem => exact if_neg (hslot c)
  | @enter c j hstage hj => exact if_neg (hslot c)
  | @sync c esr hstage hback hon => exact if_neg fun hboth => hslot c hboth.1
  | @answer c esr far branch core mem sched hstage hmem hs hret hcore => exact if_neg (hslot c)
  | create => rfl
  | irq => rfl
  | spurious => rfl
  | tick => rfl
  | resume => rfl
  | derail => rfl

/-- The step in which the process of a slot came into being is its creation. -/
theorem Inv.created {e : CoreEvent} (h : Inv L m) (hs : Step L env m e m') {x : Context}
    (hborn : Born (fun m => m.context i) ⟨m, e, m'⟩ x) : ∃ name entry stackTop mode parent,
      e = .create name entry stackTop mode parent ∧ x = newContext env i entry stackTop := by
  obtain ⟨hpre, hpost⟩ := hborn
  have hnone : m.noted i = none := context_eq_none.mp hpre
  -- No other step notes a frame for an empty slot.
  have hstill : m'.noted i = none → False := by
    intro hnone'
    rw [show m'.context i = none from context_eq_none.mpr hnone'] at hpost
    cases hpost
  cases hs with
  | @create name entry stackTop mode parent j p pid sched hs hfree hp hon =>
    have hfreej := slots_of_freeSlot hfree
    have hcur := (h.housed.placed.free hfreej).2
    obtain ⟨q, t, he, -, -, hslot, -, -, -, -, hstack, hsp, hother⟩ := createWithMode_some env name
      entry stackTop mode parent hfree (h.housed.placed.length_lt (h.housed.placed.free hfreej).1)
    rw [he] at hs
    cases hs
    obtain rfl := Option.some.inj (hslot.symm.trans hp)
    by_cases hij : i = j
    · subst hij
      refine ⟨name, entry, stackTop, mode, parent, rfl, ?_⟩
      have hwait : ∀ c, m.slotOf c ≠ some i := fun c hc => hcur c (slotOf_eq_some.mp hc)
      have hctx : Multicore.context { m with
          sched := { m.sched with table := t }
          mem := storeFrame m.mem (BitVec.ofNat 64 q.contextSp) (newFrame entry) } i = some _ :=
        context_waiting hwait hslot
      rw [savedAt, load_storeFrame] at hctx
      rw [← Option.some.inj (hctx.symm.trans hpost), newContext, hsp, hstack]
    · exact (hstill ((congrArg _ (hother i hij)).trans hnone)).elim
  | run => exact (hstill hnone).elim
  | @start c j core mem r sched hstage hback hs hj hx0 hx1 hmem =>
    obtain ⟨-, hnoted, -⟩ := started
      { m.set c core mem .process with sched, stack := Function.update m.stack j (.boot c) }
      h.housed.placed hs hj
    exact (hstill ((hnoted i).trans hnone)).elim
  | enter => exact (hstill hnone).elim
  | irq => exact (hstill hnone).elim
  | spurious => exact (hstill hnone).elim
  | @tick c core mem r sched hstage hmem hframe hs hr =>
    have hnoted := (ticked { m.set c core mem (.leaving (m.onStack c)) with sched }
      h.housed.placed hs).noted i
    rw [hnone, Option.map_none, ite_self] at hnoted
    exact (hstill hnoted).elim
  | sync => exact (hstill hnone).elim
  | @answer c esr far branch core mem sched hstage hmem hs hret hcore =>
    have hsame := edits_same { m.set c core mem (.leaving (m.onStack c)) with sched }
      (syncHandler_edits hs)
    exact (hstill ((hsame.1 i).trans hnone)).elim
  | resume => exact (hstill hnone).elim
  | derail hstage hused => exact absurd hused (h.apart _ _ hstage)

/-- Every step serves the context of a slot. -/
theorem Inv.serves {e : CoreEvent} (h : Inv L m) (hs : Step L env m e m') :
    StepServes (fun x v => ((), Move.apply x v)) (m.context i)
      ((moves i ⟨m, e, m'⟩).map fun v => (v, ())) (m'.context i) where
  absent hnone := by
    rw [h.moves_nil hs (Option.map_eq_none_iff.mp hnone), List.map_nil]
  serves x hx := by
    obtain ⟨p, hp, -⟩ := Option.map_eq_some_iff.mp hx
    exact ⟨_, h.moves_step hs hp x hx, .of_foldl ..⟩

end Invariant

end Multicore

open Multicore

/-- The context that the process of a slot was created with in a run. -/
def FirstContext (env : Env) (ts : List (Transition Multicore CoreEvent)) (i : Fin maxProcs)
    (x : Context) : Prop :=
  ∃ t ∈ ts, t.pre.sched.table.slots i = none ∧ ∃ name entry stackTop mode parent,
    t.act = .create name entry stackTop mode parent ∧ x = newContext env i entry stackTop

/-- In every run in which no CPU goes to a stack that another one is still leaving, no handler goes
astray, and each process has the context that its own moves make of the one it was created with. That
is what is in the registers of the CPU that it is on. -/
theorem contexts_kept (L : Stacks) (env : Env) (core : Cpu → Core) (mem : Mem)
    (ts : List (Transition Multicore CoreEvent)) (m : Multicore)
    (h : Trace (boot core mem) (Step L env) ts m) (hclear : ∀ t ∈ ts, t.pre.Clear t.act) :
    (∀ t ∈ ts, ∀ c core mem stage, t.act ≠ .derail c core mem stage) ∧
      ∀ i p, m.sched.table.slots i = some p → ∃ x, FirstContext env ts i x ∧
        m.context i = some ((yielded (moves i) ts).foldl Move.apply x) ∧
        ∀ c, m.slotOf c = some i → m.stage c = .process →
          contextOf (m.core c) = (yielded (moves i) ts).foldl Move.apply x := by
  have hkeep : ∀ m e m', Multicore.Inv L m → m.Clear e ∧ Step L env m e m' → Multicore.Inv L m' :=
    fun m e m' hinv hs => hinv.step hs.1 hs.2
  have hrun := h.restrict hclear
  have hboot := Multicore.Inv.boot L core mem
  have hinv := hrun.inv hboot hkeep
  refine ⟨fun t ht c core mem stage hact => ?_, fun i p hp => ?_⟩
  · obtain ⟨hpre, -, hs⟩ := hrun.of_mem hboot hkeep t ht
    exact hpre.not_derail (hact ▸ hs)
  · -- The calls of the history are the moves.
    have hcalls : yielded (fun t => (moves i t).map fun v => (v, ())) ts =
        (yielded (moves i) ts).map fun v => (v, ()) := by
      simp [yielded, List.map_flatMap]
    obtain ⟨y, hy⟩ : ∃ y, m.context i = some y := by
      rw [context, hp]
      exact ⟨_, rfl⟩
    have hserves : ∀ m e m', Multicore.Inv L m → m.Clear e ∧ Step L env m e m' →
        StepServes (fun x v => ((), Move.apply x v)) (m.context i)
          ((moves i ⟨m, e, m'⟩).map fun v => (v, ())) (m'.context i) :=
      fun m e m' hinv hs => hinv.serves hs.2
    obtain ⟨⟨t, ht, x, hborn⟩, hhist⟩ :=
      (hrun.history (fun m => m.context i) (fun t => (moves i t).map fun v => (v, ())) hboot hkeep rfl
        hserves).2 y hy
    obtain ⟨hpre, -, hs⟩ := hrun.of_mem hboot hkeep t ht
    have hcontext : y = (yielded (moves i) ts).foldl Move.apply x := by
      have hone := hhist t ht x hborn
      rw [hcalls] at hone
      exact (hone.unique (.of_foldl ..) rfl).2
    refine ⟨x, ⟨t, ht, Option.map_eq_none_iff.mp hborn.pre, hpre.created hs hborn⟩,
      hcontext ▸ hy, fun c hc hstage => ?_⟩
    rw [← hcontext, ← Option.some.injEq, ← hy, context_current hinv.housed.placed hc hp, onCpu, hstage]

/-- No stack that a handler is leaving is in use on another CPU. -/
def Multicore.Apart (m : Multicore) : Prop := ∀ c k, m.stage c = .leaving k → ¬m.Used c k

/-- A CPU that goes to a stack that another one is leaving has it in use. -/
theorem Multicore.clear_of_apart {L : Stacks} {env : Env} {m m' : Multicore} {e : CoreEvent}
    (h : m'.Apart) (hs : Step L env m e m') : m.Clear e := by
  cases hs with
  | @resume c k is hstage his =>
    intro d hdc hd
    refine h d (m.onStack c) ((Function.update_of_ne hdc ..).trans hd)
      ⟨c, hdc.symm, fun l hl => ?_, rfl⟩
    rw [set_stage] at hl
    exact Inv.back_not_leaving m c l hl
  | @enter c i hstage hslot =>
    intro d hdc j hj hd
    obtain rfl : i = j := Option.some.inj (hslot.symm.trans hj)
    have hstack : onStack { m.set c (startFirst (m.core c)) m.mem .process with
        stack := Function.update m.stack i (.proc i) } c = .proc i := by
      show (m.slotOf c).elim (.boot c) (Function.update m.stack i (.proc i)) = .proc i
      rw [hslot, Option.elim_some, Function.update_self]
    refine h d (.proc i) ((Function.update_of_ne hdc ..).trans hd) ⟨c, hdc.symm, fun l hl => ?_, hstack⟩
    have hprocess : Stage.process = .leaving l := (Function.update_self ..).symm.trans hl
    cases hprocess
  | run => trivial
  | start => trivial
  | create => trivial
  | irq => trivial
  | spurious => trivial
  | tick => trivial
  | sync => trivial
  | answer => trivial
  | derail => trivial

/-- In every run, no stack that a handler is leaving is ever in use on another CPU exactly if no CPU
goes to a stack that another one is still leaving. -/
theorem apart_iff (L : Stacks) (env : Env) (core : Cpu → Core) (mem : Mem)
    (ts : List (Transition Multicore CoreEvent)) (m : Multicore)
    (h : Trace (boot core mem) (Step L env) ts m) :
    (∀ m ∈ reached (boot core mem) ts, m.Apart) ↔ ∀ t ∈ ts, t.pre.Clear t.act := by
  constructor
  · intro hapart t ht
    have hs := (h.of_mem (P := fun _ => True) trivial (fun _ _ _ _ _ => trivial) t ht).2
    exact clear_of_apart (hapart t.post (List.mem_append_left _ (List.mem_map_of_mem ht))) hs
  · intro hclear m hm
    have hinv := h.always (Inv.boot L core mem) (fun m e m' hinv hok hs => hinv.step hok hs) hclear
    exact (hinv m hm).apart

/-- The stacks of the processes, and those that the CPUs boot on. -/
def sampleStacks : Stacks where
  region k := {a | a.toNat / stackSize = match k with
    | .boot c => c.val
    | .proc i => 32 + i.val}
  disjoint {k l a} hkl hk hl := by
    apply hkl
    have heq := hk.symm.trans hl
    cases k with
    | boot c =>
      cases l with
      | boot d => exact congrArg _ (Fin.ext heq)
      | proc j =>
        have hc := c.isLt
        unfold maxCpus at hc
        dsimp only at heq
        omega
    | proc i =>
      cases l with
      | boot d =>
        have hd := d.isLt
        unfold maxCpus at hd
        dsimp only at heq
        omega
      | proc j =>
        dsimp only at heq
        exact congrArg _ (Fin.ext (by omega))

/-- CPU 0 at `start_first`, with the entry point and the stack of the shell. -/
def firstCore : Core where
  x i := if i.val = 0 then 0x80000 else 0x1080000
  sp := 0x8000
  pc := 0x80100
  pstate := 0x5
  elr := 0
  spsr := 0
  spEl0 := 0
  simd := ⟨fun _ => 0, 0, 0⟩

/-- No CPU is started. -/
def allWait : Multicore := boot (fun _ => firstCore) fun _ => 0

/-- The shell was created, -/
def shellWaits : Multicore :=
  { allWait with
    sched := shellCreated
    mem := storeFrame allWait.mem 0x107fee0 (newFrame 0x80000) }

/-- CPU 0 took it, -/
def shellFirst : Multicore :=
  { shellWaits.set 0 firstCore shellWaits.mem .process with
    sched := shellStarted
    stack := Function.update shellWaits.stack 0 (.boot 0) }

/-- and went to its entry point. -/
def shellRuns : Multicore :=
  { shellFirst.set 0 (startFirst firstCore) shellFirst.mem .process with
    stack := Function.update shellFirst.stack 0 (.proc 0) }

/-- There CPU 0 is interrupted. -/
def shellIrq : Multicore :=
  shellRuns.set 0 (runs irqVectorSave ((startFirst firstCore).takeIrq, shellRuns.mem)).1
    (runs irqVectorSave ((startFirst firstCore).takeIrq, shellRuns.mem)).2 .irq

/-- The registers that the handler returns with. -/
def handlerCore : Core := firstCore.withX fun _ => 0x107fee0

/-- The scheduler goes back to the shell, -/
def shellTicked : Multicore :=
  { shellIrq.set 0 handlerCore shellIrq.mem (.leaving (.proc 0)) with
    sched := (scheduleFromIrq 0 0x107fee0 shellStarted).toOption.elim shellStarted (·.2) }

/-- and so does the CPU. -/
def shellResumes : Multicore :=
  shellTicked.set 0 (runs irqVectorRestore (handlerCore, shellTicked.mem)).1
    (runs irqVectorRestore (handlerCore, shellTicked.mem)).2 .process

/-- The steps. -/
def shellSteps : List (Transition Multicore CoreEvent) :=
  [⟨shellTicked, .resume 0, shellResumes⟩,
    ⟨shellIrq, .tick 0 handlerCore shellIrq.mem, shellTicked⟩, ⟨shellRuns, .irq 0, shellIrq⟩,
    ⟨shellFirst, .enter 0, shellRuns⟩, ⟨shellWaits, .start 0 firstCore shellWaits.mem, shellFirst⟩,
    ⟨allWait, .create "shell" 0x80000 0 .user none, shellWaits⟩]

/-- The frame of the shell is on its stack. -/
theorem on_shell : sampleStacks.On (.proc 0) 0x107fee0 := by
  intro a ha
  obtain ⟨i, hi, rfl⟩ := List.mem_map.mp ha
  have hlt := List.mem_range.mp hi
  show (0x107fee0 + BitVec.ofNat 64 (8 * i)).toNat / 0x80000 = 32
  rw [BitVec.toNat_add, BitVec.toNat_ofNat, show (0x107fee0 : BitVec 64).toNat = 0x107fee0 from rfl]
  omega

/-- This is a run. -/
theorem trace_shellSteps :
    Trace allWait (Step sampleStacks sampleEnv) shellSteps shellResumes := by
  have hcreate : Step sampleStacks sampleEnv allWait (.create "shell" 0x80000 0 .user none)
      shellWaits := by
    obtain ⟨p, hp, hsp⟩ : ∃ p, shellCreated.table.slots 0 = some p ∧
        BitVec.ofNat 64 p.contextSp = 0x107fee0 := ⟨_, rfl, rfl⟩
    have hs : createWithMode sampleEnv "shell" 0x80000 0 .user none allWait.sched =
        (some 1, shellCreated) := rfl
    have hstep := Step.create (L := sampleStacks) (m := allWait) (i := 0) hs rfl hp (hsp ▸ on_shell)
    rwa [hsp] at hstep
  have hstart : Step sampleStacks sampleEnv shellWaits (.start 0 firstCore shellWaits.mem) shellFirst :=
    .start rfl rfl rfl rfl rfl rfl fun _ _ _ _ => rfl
  have henter : Step sampleStacks sampleEnv shellFirst (.enter 0) shellRuns := .enter rfl rfl
  have hirq : Step sampleStacks sampleEnv shellRuns (.irq 0) shellIrq := .irq rfl on_shell
  have hptr : framePtr (shellIrq.core 0) = 0x107fee0 := (save_eq (startFirst firstCore) shellRuns.mem).1
  have hsched : ∃ r sched, scheduleFromIrq 0 0x107fee0 shellStarted = .ok (r, sched) ∧
      r = 0x107fee0 ∧ shellTicked.sched = sched := ⟨_, _, rfl, rfl, rfl⟩
  have htick : Step sampleStacks sampleEnv shellIrq (.tick 0 handlerCore shellIrq.mem) shellTicked := by
    obtain ⟨r, sched, hs, rfl, hpost⟩ := hsched
    have hstep : Step sampleStacks sampleEnv shellIrq (.tick 0 handlerCore shellIrq.mem)
        { shellTicked with sched } :=
      .tick rfl (fun _ _ _ _ => rfl) (fun _ _ => rfl) (hptr ▸ hs) rfl
    rwa [← hpost] at hstep
  have hresume : Step sampleStacks sampleEnv shellTicked (.resume 0) shellResumes :=
    .resume rfl (.inl rfl)
  exact .cons (.cons (.cons (.cons (.cons (.cons .nil hcreate) hstart) henter) hirq) htick) hresume

/-- The other CPUs are still on their way to `start_on_cpu`. -/
theorem stage_shellTicked {d : Cpu} (hd : d ≠ 0) : shellTicked.stage d = .boot := by
  show Function.update (Function.update (Function.update (Function.update _ 0 _) 0 _) 0 _) 0 _ d = _
  simp only [Function.update_of_ne hd]
  rfl

/-- Nobody is on the way out of a handler elsewhere. -/
theorem clear_shellSteps : ∀ t ∈ shellSteps, t.pre.Clear t.act := by
  simp only [shellSteps, List.forall_mem_cons]
  refine ⟨fun d hd he => ?_, trivial, trivial, fun d hd i _ he => ?_, trivial, trivial, nofun⟩
  · rw [stage_shellTicked hd] at he
    cases he
  · rw [show shellFirst.stage d = .boot from Function.update_of_ne hd ..] at he
    cases he

/-- `apart_iff` for the shell. -/
theorem apart_iff_shell : shellTicked.Apart :=
  (apart_iff sampleStacks sampleEnv _ _ _ _ trace_shellSteps).mpr clear_shellSteps _ (.tail _ (.head _))

/-- `contexts_kept` for the shell: after the tick it is where it was, with what it had. -/
theorem contexts_kept_shell : contextOf (shellResumes.core 0) = contextOf (startFirst firstCore) := by
  obtain ⟨x, -, -, hcpu⟩ := (contexts_kept sampleStacks sampleEnv _ _ _ _ trace_shellSteps
    clear_shellSteps).2 0 _ rfl
  rw [hcpu 0 rfl rfl]
  rfl

end Ralix.Kernel
