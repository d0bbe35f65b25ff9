import Ralix.Kernel.Smp

/-!
# The CPUs come up

What holds in every state on the way from `boot.S` to the scheduler, in any order of the steps of the
CPUs (`SmpInv`).
-/

namespace Ralix.Kernel

open Lib ProcessTable

/-! ## How many processes there are -/

section Counting

variable {s : Sched}

/-- The slots in use are the first `next_pid - 1`. -/
theorem Inv.card_processes (h : Inv s) : s.processes.card + 1 = s.table.nextPid := by
  have hpos := h.nextPid
  have hset : s.processes.image Fin.val = Finset.range (s.table.nextPid - 1) := by
    ext x
    simp only [Sched.processes, Finset.mem_image, Finset.mem_filter, Finset.mem_univ, true_and,
      Finset.mem_range]
    constructor
    · rintro ⟨i, hi, rfl⟩
      have := (h.used i).mp hi
      omega
    · intro hx
      have hlt : x < maxProcs := by omega
      exact ⟨⟨x, hlt⟩, (h.used _).mpr (by show x + 1 < _; omega), rfl⟩
  have hcard := congrArg Finset.card hset
  rw [Finset.card_image_of_injective _ Fin.val_injective, Finset.card_range] at hcard
  omega

/-- Each process is on one CPU, or queued once. -/
theorem Inv.card_eq (h : Inv s) :
    s.table.queue.length + s.started.card = s.processes.card := by
  have hset : s.processes.image Fin.val = s.table.queue.toFinset ∪ s.started.image s.current := by
    ext x
    simp only [Sched.processes, Sched.started, Finset.mem_image, Finset.mem_filter, Finset.mem_univ,
      true_and, Finset.mem_union, List.mem_toFinset]
    constructor
    · rintro ⟨i, hi, rfl⟩
      obtain ⟨p, hp⟩ := Option.isSome_iff_exists.mp hi
      rcases h.owned i p hp with ⟨c, hc⟩ | hmem
      · exact .inr ⟨c, hc ▸ slot_ne_invalidIdx i, hc⟩
      · exact .inl hmem
    · rintro (hx | ⟨c, hc, rfl⟩)
      · obtain ⟨i, p, rfl, hp, -⟩ := h.queued x hx
        exact ⟨i, by rw [hp]; rfl, rfl⟩
      · obtain ⟨i, p, hi, hp, -⟩ := (h.current c).resolve_left hc
        exact ⟨i, by rw [hp]; rfl, hi.symm⟩
  have hdisj : Disjoint s.table.queue.toFinset (s.started.image s.current) := by
    rw [Finset.disjoint_left]
    intro x hx hcur
    obtain ⟨c, -, rfl⟩ := Finset.mem_image.mp hcur
    exact h.not_current_of_queued (List.mem_toFinset.mp hx) c rfl
  have hinj : Set.InjOn s.current s.started := fun c hc d _ hcd =>
    h.current_inj hcd (Finset.mem_filter.mp hc).2
  calc s.table.queue.length + s.started.card
      = s.table.queue.toFinset.card + (s.started.image s.current).card := by
        rw [List.toFinset_card_of_nodup h.nodup, Finset.card_image_of_injOn hinj]
    _ = (s.processes.image Fin.val).card := by rw [hset, Finset.card_union_of_disjoint hdisj]
    _ = s.processes.card := Finset.card_image_of_injective _ Fin.val_injective

end Counting

/-! ## What a CPU does to the processes -/

/-- What a critical section of a CPU that puts a process there does: all else stays as it was. -/
structure Runs (c : Cpu) (s s' : Sched) : Prop where
  inv : Inv s'
  nextPid : s'.table.nextPid = s.table.nextPid
  other : ∀ d, d ≠ c → s'.current d = s.current d
  current : s'.current c = s.current c ∨ s'.current c ≠ invalidIdx
  initFds : s'.initFds = s.initFds
  slots : ∀ i p', s'.table.slots i = some p' →
    ∃ p, s.table.slots i = some p ∧ p'.ttbr0 = p.ttbr0 ∧ p'.fds = p.fds

section Runs

variable {s : Sched} {c : Cpu}

/-- A process's slot with something done to the process that keeps its tables and descriptors. -/
theorem exists_of_map {slot : Option Process} {f : Process → Process} {p' : Process}
    (hf : ∀ p, (f p).ttbr0 = p.ttbr0 ∧ (f p).fds = p.fds) (h : slot.map f = some p') :
    ∃ p, slot = some p ∧ p'.ttbr0 = p.ttbr0 ∧ p'.fds = p.fds := by
  obtain ⟨p, hp, rfl⟩ := Option.map_eq_some_iff.mp h
  exact ⟨p, hp, hf p⟩

/-- `schedule_from_irq` always returns. -/
theorem Inv.runs_schedule (h : Inv s) (c : Cpu) (frame : ℕ) :
    ∃ r s', scheduleFromIrq c frame s = .ok (r, s') ∧ Runs c s s' ∧
      (s.table.queue ≠ [] → s'.current c = s.table.queue.head?.getD 0 ∧
        s'.table.queue = s.table.queue.tail ++ leaving s c) := by
  match hq : s.table.queue with
  | [] =>
    obtain ⟨t, he, -, hpid, hslots⟩ := scheduleFromIrq_idle h c frame hq
    refine ⟨_, _, he, ⟨h.schedule he, hpid, fun d _ => rfl, .inl rfl, rfl,
      fun i p' hp' => ?_⟩,
      fun hne => absurd rfl hne⟩
    rw [show t.slots i = _ from hslots i] at hp'
    split at hp'
    · exact exists_of_map (f := resume c frame) (fun _ => ⟨rfl, rfl⟩) hp'
    · exact ⟨p', hp', rfl, rfl⟩
  | x :: rest =>
    obtain ⟨i, p, rfl, hp, -⟩ := h.queued x (by rw [hq]; exact List.mem_cons_self)
    obtain ⟨t, he, hqueue, hpid, hi, hother⟩ := scheduleFromIrq_switch h c frame hq hp
    refine ⟨_, _, he, ⟨h.schedule he, hpid, fun d hd => Function.update_of_ne hd .., .inr ?_,
      rfl, fun j p' hp' => ?_⟩, fun _ => ⟨Function.update_self .., hqueue⟩⟩
    · show Function.update s.current c i.val c ≠ invalidIdx
      rw [Function.update_self]
      exact slot_ne_invalidIdx i
    · by_cases hj : j = i
      · subst hj
        rw [show t.slots j = _ from hi] at hp'
        cases hp'
        exact ⟨p, hp, rfl, rfl⟩
      · rw [show t.slots j = _ from hother j hj] at hp'
        split at hp'
        · exact exists_of_map (f := suspend frame) (fun _ => ⟨rfl, rfl⟩) hp'
        · exact ⟨p', hp', rfl, rfl⟩

/-- `start_on_cpu` returns if a process is queued. -/
theorem Inv.runs_start (h : Inv s) (hc : s.current c = invalidIdx) (hq : s.table.queue ≠ []) :
    ∃ r s', startOnCpu c s = .ok (r, s') ∧ Runs c s s' ∧ s'.current c ≠ invalidIdx := by
  match hq' : s.table.queue with
  | [] => exact absurd hq' hq
  | x :: rest =>
    obtain ⟨i, p, rfl, hp, -⟩ := h.queued x (by rw [hq']; exact List.mem_cons_self)
    obtain ⟨t, he, -, hpid, hi, hother⟩ := startOnCpu_cons h c hq' hp
    have hput : Function.update s.current c i.val c ≠ invalidIdx := by
      rw [Function.update_self]
      exact slot_ne_invalidIdx i
    refine ⟨_, _, he, ⟨h.start hc he, hpid, fun d hd => Function.update_of_ne hd .., .inr hput,
      rfl, fun j p' hp' => ?_⟩, hput⟩
    by_cases hj : j = i
    · subst hj
      rw [show t.slots j = _ from hi] at hp'
      cases hp'
      exact ⟨p, hp, rfl, rfl⟩
    · exact ⟨p', (hother j hj).symm.trans hp', rfl, rfl⟩

/-- With five processes, the four CPUs leave one in the queue. -/
theorem Inv.queue_ne_nil (h : Inv s) (hpid : s.table.nextPid = 6) : s.table.queue ≠ [] := by
  intro hq
  have heq := h.card_eq
  have hcard := h.card_processes
  have hstarted : s.started.card ≤ 4 := Finset.card_le_univ _
  rw [hq, List.length_nil] at heq
  omega

end Runs

instance : NeZero maxFds := ⟨by decide⟩

/-- The descriptors of a process at first: the keyboard, and the screen twice. -/
def stdFds : FdTable := fun i =>
  match i.val with
  | 0 => some ⟨.devKbd0, ⟨true, false, false⟩⟩
  | 1 | 2 => some ⟨.devFb0, ⟨false, true, false⟩⟩
  | _ => none

/-- A process as `kernel_main` creates it, as far as its tables and descriptors go. -/
structure Process.Equipped (image : Image) (p : Process) : Prop where
  ttbr0 : p.ttbr0 = image.userRootPa
  fds : p.fds = stdFds

/-- A process that a creation without a parent leaves is one that was there, or has the tables that
were asked for and the descriptors of `INIT_FDS`. -/
theorem createWithMode_slots {s : Sched} {env : Env} {name : String} {entry stackTop : ℕ}
    {mode : ProcessMode} {i : Fin maxProcs} {p : Process}
    (h : (createWithMode env name entry stackTop mode none s).2.table.slots i = some p) :
    p.ttbr0 = env.userRootPa ∧ p.fds = s.initFds ∨ s.table.slots i = some p := by
  unfold createWithMode at h
  split at h
  · exact .inr h
  · rename_i idx _
    by_cases hi : i = idx
    · subst hi
      simp only [allocPid, pushQueue_slots, setSlot_slots_self, Option.some.injEq] at h
      exact .inl (by rw [← h]; exact ⟨rfl, rfl⟩)
    · simp only [allocPid, pushQueue_slots, setSlot_slots_of_ne hi] at h
      exact .inr h

/-! ## The lists -/

/-- A step that creates a process. -/
def BootStep.creates (x : BootStep) : Bool := x = .createShell || x = .createIdle

/-- What a step does to `INIT_FDS`. -/
def BootStep.initFds (x : BootStep) (fds : FdTable) : FdTable :=
  match x with
  | .setStdin => Function.update fds 0 (stdFds 0)
  | .setStdout => Function.update fds 1 (stdFds 1)
  | .setStderr => Function.update fds 2 (stdFds 2)
  | _ => fds

/-- `INIT_FDS` while CPU 0 has these steps left. -/
def initFdsAt (todo : List BootStep) : FdTable := fun i =>
  if i = 0 ∧ .setStdin ∈ todo ∨ i = 1 ∧ .setStdout ∈ todo ∨ i = 2 ∧ .setStderr ∈ todo then none
  else stdFds i

/-- What is left of `kernel_main` tells what came before it: the tables and the process table come
before the processes, and those before any other core is released. -/
structure MainOrder (todo : List BootStep) : Prop where
  tables : .processInit ∉ todo → .pagingInit ∉ todo
  processes : .processInit ∈ todo → todo.countP BootStep.creates = 5
  create : ∀ x ∈ todo.head?, x.creates → .processInit ∉ todo ∧ ∀ i, initFdsAt todo i = stdFds i
  first : .processInit ∈ todo.tail → todo.head? = some .pagingInit
  release : ∀ c, c ≠ 0 → .release c ∉ todo →
    .processInit ∉ todo ∧ todo.countP BootStep.creates = 0
  event : .sendEvent ∉ todo → ∀ c, c ≠ 0 → .release c ∉ todo
  unmask : .initPerCpu ∉ todo → .sendEvent ∉ todo
  start : todo.head? = some .startOnCpu → .sendEvent ∉ todo

/-- It is so for every rest of `kernel_main`. -/
theorem kernelMain_order {todo : List BootStep} (h : todo <:+ kernelMain) : MainOrder todo := by
  have hmem : todo ∈ kernelMain.tails := (List.mem_tails ..).mpr h
  clear h
  constructor <;> (revert todo; decide)

/-- What is left of the list of any CPU: a core waits first, and only `start_on_cpu` comes after
interrupts are unmasked. -/
structure ListOrder (todo : List BootStep) : Prop where
  unmask : .initPerCpu ∉ todo → todo = [] ∨ todo = [.startOnCpu]
  start : .startOnCpu ∉ todo → todo = []
  await : ∀ x ∈ todo.head?, x ≠ .await → .await ∉ todo
  once : ∀ x ∈ todo.head?, ¬x.creates → x ∉ todo.tail
  initFds : ∀ x ∈ todo.head?, ∀ i, initFdsAt todo.tail i = x.initFds (initFdsAt todo) i

/-- It is so for every rest of a list. -/
theorem mainOf_order {c : Cpu} {todo : List BootStep} (h : todo <:+ mainOf c) : ListOrder todo := by
  have hmem : todo ∈ kernelMain.tails ++ secondaryMain.tails := by
    rw [List.mem_append, List.mem_tails, List.mem_tails]
    unfold mainOf at h
    split at h
    · exact .inl h
    · exact .inr h
  clear h
  constructor <;> (revert todo; decide)

/-- What is left of a list after the step `x`. -/
structure Rest (c : Cpu) (x : BootStep) (todo todo' : List BootStep) : Prop where
  head : x = .startOnCpu ∨ todo.head? = some x
  tail : todo' = todo.tail
  mem : x ∈ mainOf c
  suffix : todo' <:+ mainOf c
  left : ∀ y, ¬y.creates → (y ∈ todo' ↔ y ∈ todo ∧ y ≠ x)
  creates : todo'.countP BootStep.creates + (if x.creates then 1 else 0) =
    todo.countP BootStep.creates
  initFds : initFdsAt todo' = x.initFds (initFdsAt todo)

/-- The first step of a list leaves the others. -/
theorem rest_cons {c : Cpu} {x : BootStep} {rest : List BootStep} (h : x :: rest <:+ mainOf c) :
    Rest c x (x :: rest) rest where
  head := .inr rfl
  tail := rfl
  mem := h.subset List.mem_cons_self
  suffix := (List.suffix_cons x rest).trans h
  left y hy := by
    constructor
    · intro hmem
      refine ⟨List.mem_cons_of_mem _ hmem, ?_⟩
      rintro rfl
      exact (mainOf_order h).once y rfl hy hmem
    · rintro ⟨hmem, hne⟩
      exact (List.mem_cons.mp hmem).resolve_left hne
  creates := (List.countP_cons ..).symm
  initFds := funext ((mainOf_order h).initFds x rfl)

/-- Once interrupts are unmasked, only `start_on_cpu` can be left. -/
theorem rest_nil {c : Cpu} {todo : List BootStep} (h : todo <:+ mainOf c)
    (hunmask : .initPerCpu ∉ todo) : Rest c .startOnCpu todo [] := by
  rcases (mainOf_order h).unmask hunmask with rfl | rfl
  · exact ⟨.inl rfl, rfl, by revert c; decide, List.nil_suffix, by simp, rfl, rfl⟩
  · exact rest_cons h

/-! ## What a step does -/

/-- What the step `x` of the CPU `c` does to the processes. -/
structure SchedEffect (image : Image) (c : Cpu) (x : BootStep) (s s' : Sched) : Prop where
  inv : Inv s'
  nextPid : s'.table.nextPid = s.table.nextPid + (if x.creates then 1 else 0)
  other : ∀ d, d ≠ c → s'.current d = s.current d
  current : if x = .startOnCpu then s'.current c ≠ invalidIdx else s'.current c = s.current c
  initFds : s'.initFds = x.initFds s.initFds
  slots : ∀ i p, s'.table.slots i = some p → p.Equipped image

namespace Smp

/-- All that the step `x` of the CPU `c` does, in a state that bringing up the CPUs reaches. A timer
interrupt counts as `start_on_cpu`. -/
structure Effect (image : Image) (c : Cpu) (x : BootStep) (m m' : Smp) : Prop where
  rest : Rest c x (m.cpu c).todo (m'.cpu c).todo
  sched : SchedEffect image c x m.sched m'.sched
  fresh : .processInit ∈ (m'.cpu 0).todo → m'.sched = m.sched
  other : ∀ d, d ≠ c → m'.cpu d = { m.cpu d with event := (m'.cpu d).event }
  event : ∀ d, (m'.cpu d).event = ((m.cpu d).event || x = .sendEvent)
  wait : (m'.cpu c).wait = (m.cpu c).wait
  calm : (m'.cpu c).panicked = false
  irq : (m'.cpu c).irq → (m.cpu c).irq ∨ x = .initPerCpu
  ttbr1 : (m'.cpu c).ttbr1 = image.kernelRootPa ∨
    (m'.cpu c).ttbr1 = (m.cpu c).ttbr1 ∧ x ≠ .pagingInit ∧ x ≠ .setTtbr1
  ttbr0 : (m'.cpu c).ttbr0 = image.userRootPa ∨
    (m'.cpu c).ttbr0 = (m.cpu c).ttbr0 ∧ x ≠ .pagingInit ∧ x ≠ .setTtbr0
  waited : x = .await → m.released c
  released : ∀ d, m'.released d = (m.released d || x = .release d)
  roots : (m'.kernelRoot = image.kernelRootPa ∧ m'.userRoot = image.userRootPa) ∨
    (m'.kernelRoot = m.kernelRoot ∧ m'.userRoot = m.userRoot ∧ x ≠ .pagingInit)

/-- Only CPU 0 does what is not on the list of the others. -/
theorem eq_zero_of_mem {c : Cpu} {x : BootStep} (h : x ∈ mainOf c) (hx : x ∉ secondaryMain) :
    c = 0 := by
  by_contra hc
  rw [mainOf, if_neg hc] at h
  exact hx h

/-- What a step leaves of the list of CPU 0. -/
theorem Effect.left_zero {image : Image} {m m' : Smp} {c : Cpu} {x : BootStep}
    (he : Effect image c x m m') {y : BootStep} (hy : ¬y.creates)
    (hmain : y ∉ secondaryMain) :
    y ∈ (m'.cpu 0).todo ↔ y ∈ (m.cpu 0).todo ∧ y ≠ x := by
  by_cases hc : c = 0
  · subst hc
    exact he.rest.left y hy
  · rw [he.other 0 (Ne.symm hc), and_iff_left]
    rintro rfl
    exact hc (eq_zero_of_mem he.rest.mem hmain)

/-! ## The invariant -/

/-- What holds on the way to the scheduler. -/
structure Inv (image : Image) (m : Smp) : Prop where
  suffix : ∀ c, (m.cpu c).todo <:+ mainOf c
  calm : ∀ c, (m.cpu c).panicked = false
  /-- A CPU has a process exactly if it is past `start_on_cpu`. -/
  current : ∀ c, m.sched.current c = invalidIdx ↔ .startOnCpu ∈ (m.cpu c).todo
  irq : ∀ c, (m.cpu c).irq → .initPerCpu ∉ (m.cpu c).todo
  ttbr1 : ∀ c, .pagingInit ∉ (m.cpu c).todo → .setTtbr1 ∉ (m.cpu c).todo →
    (m.cpu c).ttbr1 = image.kernelRootPa
  ttbr0 : ∀ c, .pagingInit ∉ (m.cpu c).todo → .setTtbr0 ∉ (m.cpu c).todo →
    (m.cpu c).ttbr0 = image.userRootPa
  /-- The table has an entry for a core once CPU 0 has stored it. -/
  released : ∀ c, c ≠ 0 → (m.released c ↔ .release c ∉ (m.cpu 0).todo)
  /-- A core leaves its wait loop only then. -/
  await : ∀ c, c ≠ 0 → .await ∉ (m.cpu c).todo → m.released c
  /-- No core sleeps on once the event was sent. -/
  event : ∀ c, .sendEvent ∉ (m.cpu 0).todo → (m.cpu c).wait = .load ∨ (m.cpu c).event
  roots : .pagingInit ∉ (m.cpu 0).todo →
    m.kernelRoot = image.kernelRootPa ∧ m.userRoot = image.userRootPa
  inv : Kernel.Inv m.sched
  fresh : .processInit ∈ (m.cpu 0).todo → m.sched = Kernel.init
  /-- CPU 0 creates five processes. -/
  nextPid : m.sched.table.nextPid + (m.cpu 0).todo.countP BootStep.creates = 6
  initFds : m.sched.initFds = initFdsAt (m.cpu 0).todo
  slots : ∀ i p, m.sched.table.slots i = some p → p.Equipped image

namespace Inv

variable {image : Image} {m m' : Smp} {c : Cpu} {x : BootStep}

/-- The state in which `boot.S` starts the CPUs. -/
theorem boot (image : Image) : Inv image (boot image) where
  suffix _ := List.suffix_refl _
  calm _ := rfl
  current c := by
    have hmem : BootStep.startOnCpu ∈ mainOf c := by revert c; decide
    exact iff_of_true rfl hmem
  irq _ h := by cases h
  ttbr1 c := by
    have hmem : BootStep.pagingInit ∈ mainOf c ∨ .setTtbr1 ∈ mainOf c := by revert c; decide
    exact fun hp hs => absurd hmem (not_or_intro hp hs)
  ttbr0 c := by
    have hmem : BootStep.pagingInit ∈ mainOf c ∨ .setTtbr0 ∈ mainOf c := by revert c; decide
    exact fun hp hs => absurd hmem (not_or_intro hp hs)
  released c hc := by
    have hmem : BootStep.release c ∈ mainOf 0 := by revert c; decide
    exact iff_of_false Bool.false_ne_true (not_not_intro hmem)
  await c hc := by
    have hmem : BootStep.await ∈ mainOf c := by revert c; decide
    exact fun hawait => absurd hmem hawait
  event _ _ := .inl rfl
  roots h := absurd (show BootStep.pagingInit ∈ mainOf 0 by decide) h
  inv := Inv.init
  fresh _ := rfl
  nextPid := show 1 + (mainOf 0).countP BootStep.creates = 6 by decide
  initFds := by
    funext i
    show none = initFdsAt (mainOf 0) i
    revert i
    decide
  slots _ _ h := by cases h

/-- A step keeps the invariant. -/
theorem next (h : Inv image m) (he : Effect image c x m m') : Inv image m' where
  suffix d := by
    by_cases hd : d = c
    · exact hd ▸ he.rest.suffix
    · rw [he.other d hd]
      exact h.suffix d
  calm d := by
    by_cases hd : d = c
    · exact hd ▸ he.calm
    · rw [he.other d hd]
      exact h.calm d
  current d := by
    by_cases hd : d = c
    · subst hd
      have hleft := he.rest.left .startOnCpu (by decide)
      have hcur := he.sched.current
      rw [hleft]
      split at hcur
      · rename_i hx
        simp [hcur, hx]
      · rename_i hx
        rw [hcur, h.current, and_iff_left (Ne.symm hx)]
    · rw [he.other d hd, he.sched.other d hd]
      exact h.current d
  irq d := by
    by_cases hd : d = c
    · subst hd
      intro hirq
      rw [he.rest.left .initPerCpu (by decide)]
      rintro ⟨hmem, hne⟩
      rcases he.irq hirq with hirq | hx
      · exact h.irq d hirq hmem
      · exact hne hx.symm
    · rw [he.other d hd]
      exact h.irq d
  ttbr1 d := by
    by_cases hd : d = c
    · subst hd
      rw [he.rest.left .pagingInit (by decide), he.rest.left .setTtbr1 (by decide)]
      intro hp hs
      rcases he.ttbr1 with htt | ⟨htt, hxp, hxs⟩
      · exact htt
      · rw [htt]
        exact h.ttbr1 d (fun hmem => hp ⟨hmem, hxp.symm⟩) fun hmem => hs ⟨hmem, hxs.symm⟩
    · rw [he.other d hd]
      exact h.ttbr1 d
  ttbr0 d := by
    by_cases hd : d = c
    · subst hd
      rw [he.rest.left .pagingInit (by decide), he.rest.left .setTtbr0 (by decide)]
      intro hp hs
      rcases he.ttbr0 with htt | ⟨htt, hxp, hxs⟩
      · exact htt
      · rw [htt]
        exact h.ttbr0 d (fun hmem => hp ⟨hmem, hxp.symm⟩) fun hmem => hs ⟨hmem, hxs.symm⟩
    · rw [he.other d hd]
      exact h.ttbr0 d
  released d hd := by
    have hmain : BootStep.release d ∉ secondaryMain := by revert d; decide
    rw [he.released, he.left_zero (by simp [BootStep.creates]) hmain, Bool.or_eq_true,
      h.released d hd, decide_eq_true_eq, not_and_or, not_not, eq_comm]
  await d hd hawait := by
    have hreleased : m.released d → m'.released d := fun hr => by rw [he.released, hr]; rfl
    refine hreleased ?_
    by_cases hdc : d = c
    · subst hdc
      rw [he.rest.left .await (by decide), not_and_or, not_not] at hawait
      rcases hawait with hawait | hx
      · exact h.await d hd hawait
      · exact he.waited hx.symm
    · rw [he.other d hdc] at hawait
      exact h.await d hd hawait
  event d hsend := by
    have hwait : (m'.cpu d).wait = (m.cpu d).wait := by
      by_cases hd : d = c
      · exact hd ▸ he.wait
      · rw [he.other d hd]
    rw [hwait, he.event]
    rw [he.left_zero (by decide) (by decide), not_and_or, not_not] at hsend
    rcases hsend with hsend | hx
    · exact (h.event d hsend).imp_right fun hev => by rw [hev]; rfl
    · exact .inr (by simp [← hx])
  roots hp := by
    rw [he.left_zero (by decide) (by decide), not_and_or, not_not] at hp
    rcases he.roots with hroots | ⟨hk, hu, hx⟩
    · exact hroots
    · rw [hk, hu]
      exact h.roots (hp.resolve_right (Ne.symm hx))
  inv := he.sched.inv
  fresh hmem := by
    rw [he.fresh hmem]
    exact h.fresh ((he.left_zero (by decide) (by decide)).mp hmem).1
  nextPid := by
    have hpid := h.nextPid
    have hpid' := he.sched.nextPid
    by_cases hc : c = 0
    · subst hc
      have hcount := he.rest.creates
      omega
    · have hx : x.creates = false := by
        have hall : ∀ x ∈ secondaryMain, x.creates = false := by decide
        have hmem := he.rest.mem
        rw [mainOf, if_neg hc] at hmem
        exact hall x hmem
      rw [he.other 0 (Ne.symm hc), hpid', hx]
      exact hpid
  initFds := by
    rw [he.sched.initFds, h.initFds]
    by_cases hc : c = 0
    · subst hc
      exact he.rest.initFds.symm
    · have hall : ∀ x ∈ secondaryMain, ∀ fds, x.initFds fds = fds := by
        intro x hx fds
        simp only [secondaryMain, List.mem_cons, List.not_mem_nil, or_false] at hx
        rcases hx with rfl | rfl | rfl | rfl | rfl <;> rfl
      have hmem := he.rest.mem
      rw [mainOf, if_neg hc] at hmem
      rw [hall x hmem, he.other 0 (Ne.symm hc)]
  slots := he.sched.slots

/-- What CPU 0 has done before it releases a core. -/
theorem of_release (h : Inv image m) {d : Cpu} (hd : d ≠ 0)
    (hrelease : .release d ∉ (m.cpu 0).todo) :
    .processInit ∉ (m.cpu 0).todo ∧ m.sched.table.nextPid = 6 ∧
      m.kernelRoot = image.kernelRootPa ∧ m.userRoot = image.userRootPa := by
  have hmain := kernelMain_order (h.suffix 0)
  obtain ⟨hinit, hcount⟩ := hmain.release d hd hrelease
  have hpid := h.nextPid
  rw [hcount] at hpid
  exact ⟨hinit, hpid, h.roots (hmain.tables hinit)⟩

/-- What a core finds past its wait loop, and CPU 0 after `start_secondary_cores`. -/
theorem passed (h : Inv image m) (hzero : c = 0 → .sendEvent ∉ (m.cpu 0).todo)
    (hcore : c ≠ 0 → .await ∉ (m.cpu c).todo) :
    .processInit ∉ (m.cpu 0).todo ∧ m.sched.table.nextPid = 6 ∧
      m.kernelRoot = image.kernelRootPa ∧ m.userRoot = image.userRootPa := by
  by_cases hc : c = 0
  · have hmain := kernelMain_order (h.suffix 0)
    exact h.of_release (d := 1) (by decide) (hmain.event (hzero hc) 1 (by decide))
  · exact h.of_release hc ((h.released c hc).mp (h.await c hc (hcore hc)))

/-- Nothing is done to the processes. -/
theorem sched_same (h : Inv image m) (hx : ¬x.creates) (hstart : x ≠ .startOnCpu)
    (hfds : ∀ fds, x.initFds fds = fds) :
    SchedEffect image c x m.sched m.sched where
  inv := h.inv
  nextPid := by simp [hx]
  other _ _ := rfl
  current := by simp [hstart]
  initFds := (hfds _).symm
  slots := h.slots

/-- `set_init_fd` changes nothing but `INIT_FDS`. -/
theorem sched_setInitFd (h : Inv image m) (fd : Fin maxFds) {desc : Option FileDesc}
    (hx : ¬x.creates) (hstart : x ≠ .startOnCpu)
    (hfds : ∀ fds, x.initFds fds = Function.update fds fd desc) :
    SchedEffect image c x m.sched (setInitFd fd desc m.sched) := by
  rw [setInitFd, dif_pos fd.isLt]
  have hinv := h.inv
  exact ⟨⟨hinv.nodup, hinv.queued, hinv.current, hinv.owned, hinv.used, hinv.pid, hinv.nextPid⟩,
    by simp [hx], fun _ _ => rfl, by rw [if_neg hstart], (hfds _).symm, h.slots⟩

/-- A creation that comes first in what CPU 0 has left makes a process. -/
theorem sched_create (h : Inv image m) (hx : x.creates) (name : String) (entry : ℕ)
    (mode : ProcessMode) (htodo : (m.cpu 0).todo.head? = some x) :
    ∃ s, m.create image 0 name entry mode = .ok s ∧ SchedEffect image 0 x m.sched s := by
  have hmain := kernelMain_order (h.suffix 0)
  obtain ⟨hinit, hfds⟩ := hmain.create x htodo hx
  have hroot := (h.roots (hmain.tables hinit)).2
  have hcur : m.sched.current 0 = invalidIdx := by
    rw [h.current 0]
    by_contra hstart
    rw [(mainOf_order (h.suffix 0)).start hstart] at htodo
    cases htodo
  have hfree : m.sched.table.nextPid ≤ maxProcs := by
    have hpid := h.nextPid
    unfold maxProcs
    omega
  let env : Env := { image.toEnv with userRootPa := m.userRoot }
  have hcreate : m.create image 0 name entry mode =
      .ok (createWithMode env name entry 0 mode none m.sched).2 := by
    rw [create, currentPid, if_pos hcur]
    rfl
  obtain ⟨i, p, t, he, -, hpid, -⟩ := createWithMode_free h.inv env name entry 0 mode none hfree
  have hinv := h.inv.create env name entry 0 mode none
  have hslots : ∀ j q, (createWithMode env name entry 0 mode none m.sched).2.table.slots j = some q →
      q.Equipped image := by
    intro j q hq
    rcases createWithMode_slots hq with ⟨htt, hqfds⟩ | hq
    · exact ⟨htt.trans hroot, hqfds.trans (h.initFds.trans (funext hfds))⟩
    · exact h.slots j q hq
  rw [he] at hcreate hinv hslots
  have hstart : x ≠ .startOnCpu := by
    rintro rfl
    cases hx
  have hsame : ∀ fds, x.initFds fds = fds := by
    intro fds
    cases x <;> first | rfl | cases hx
  exact ⟨_, hcreate, hinv, by rw [if_pos hx]; exact hpid, fun _ _ => rfl, by rw [if_neg hstart],
    (hsame _).symm, hslots⟩

/-- `start_on_cpu`, and an interrupt, put a process on a CPU. -/
theorem sched_runs (h : Inv image m) {s : Sched} (hs : Runs c m.sched s)
    (hcur : s.current c ≠ invalidIdx) : SchedEffect image c .startOnCpu m.sched s where
  inv := hs.inv
  nextPid := hs.nextPid
  other := hs.other
  current := hcur
  initFds := hs.initFds
  slots i p' hp' := by
    obtain ⟨p, hp, htt, hfds⟩ := hs.slots i p' hp'
    exact ⟨htt.trans (h.slots i p hp).ttbr0, hfds.trans (h.slots i p hp).fds⟩

/-- A step that changes the list of a CPU, its interrupt mask, and its tables. -/
theorem effect_update (h : Inv image m) {t : List BootStep} {i : Bool} {a₀ a₁ : ℕ}
    (hcpu : m'.cpu = Function.update m.cpu c
      { m.cpu c with todo := t, irq := i, ttbr0 := a₀, ttbr1 := a₁ })
    (hx : x ≠ .sendEvent) (hrest : Rest c x (m.cpu c).todo t)
    (hsched : SchedEffect image c x m.sched m'.sched)
    (hfresh : .processInit ∈ (m'.cpu 0).todo → m'.sched = m.sched)
    (hirq : i → (m.cpu c).irq ∨ x = .initPerCpu)
    (httbr1 : a₁ = image.kernelRootPa ∨ a₁ = (m.cpu c).ttbr1 ∧ x ≠ .pagingInit ∧ x ≠ .setTtbr1)
    (httbr0 : a₀ = image.userRootPa ∨ a₀ = (m.cpu c).ttbr0 ∧ x ≠ .pagingInit ∧ x ≠ .setTtbr0)
    (hwaited : x = .await → m.released c)
    (hreleased : ∀ d, m'.released d = (m.released d || x = .release d))
    (hroots : (m'.kernelRoot = image.kernelRootPa ∧ m'.userRoot = image.userRootPa) ∨
      (m'.kernelRoot = m.kernelRoot ∧ m'.userRoot = m.userRoot ∧ x ≠ .pagingInit)) :
    Effect image c x m m' := by
  have hself : m'.cpu c = { m.cpu c with todo := t, irq := i, ttbr0 := a₀, ttbr1 := a₁ } := by
    rw [hcpu, Function.update_self]
  have hother : ∀ d, d ≠ c → m'.cpu d = m.cpu d := fun d hd => by
    rw [hcpu, Function.update_of_ne hd]
  exact {
    rest := by rw [hself]; exact hrest
    sched := hsched
    fresh := hfresh
    other := fun d hd => by rw [hother d hd]
    event := fun d => by
      by_cases hd : d = c
      · subst hd
        simp [hself, hx]
      · simp [hother d hd, hx]
    wait := by rw [hself]
    calm := by rw [hself]; exact h.calm c
    irq := by rw [hself]; exact hirq
    ttbr1 := by rw [hself]; exact httbr1
    ttbr0 := by rw [hself]; exact httbr0
    waited := hwaited
    released := hreleased
    roots := hroots }

/-- A CPU is given a process. -/
theorem effect_run (h : Inv image m) {s : Sched} (hunmask : .initPerCpu ∉ (m.cpu c).todo)
    (hruns : Runs c m.sched s) (hcur : s.current c ≠ invalidIdx)
    (hinit : .processInit ∉ (m.cpu 0).todo) : Effect image c .startOnCpu m (m.run c s) := by
  have hsched := h.sched_runs hruns hcur
  have htt : currentTtbr0 s c = some image.userRootPa := by
    obtain ⟨i, p, hi, hp, -⟩ := (hsched.inv.current c).resolve_left hcur
    have hlt : s.current c < maxProcs := hi ▸ i.isLt
    have hslot : (⟨s.current c, hlt⟩ : Fin maxProcs) = i := Fin.ext hi
    rw [currentTtbr0, dif_pos hlt, hslot, hp]
    exact congrArg some (hsched.slots i p hp).ttbr0
  refine h.effect_update rfl (by decide) (rest_nil (h.suffix c) hunmask) hsched (fun hmem => ?_)
    .inl (.inr ⟨rfl, by decide, by decide⟩) (.inl (by rw [htt]; rfl)) (fun h => by cases h)
    (fun d => by simp [run, setCpu]) (.inr ⟨rfl, rfl, by decide⟩)
  by_cases hc : c = 0
  · subst hc
    simp [run, setCpu] at hmem
  · simp [run, setCpu, Function.update_of_ne (Ne.symm hc), hinit] at hmem

/-- A step of CPU 0 that changes nothing but the processes and `INIT_FDS`. -/
theorem effect_sched (h : Inv image m) {s : Sched} (hx : x ∈ (kernelMain.take 10).tail)
    (htodo : (m.cpu 0).todo.head? = some x)
    (hrest : Rest 0 x (m.cpu 0).todo (m.cpu 0).todo.tail)
    (hsched : SchedEffect image 0 x m.sched s) :
    Effect image 0 x m ({ m with sched := s }.advance 0) := by
  have hne : ∀ y ∉ (kernelMain.take 10).tail, x ≠ y := fun y hy hxy => hy (hxy ▸ hx)
  refine h.effect_update rfl (hne _ (by decide)) hrest hsched (fun hmem => ?_) .inl
    (.inr ⟨rfl, hne _ (by decide), hne _ (by decide)⟩)
    (.inr ⟨rfl, hne _ (by decide), hne _ (by decide)⟩) (fun hx => absurd hx (hne _ (by decide)))
    (fun d => ?_) (.inr ⟨rfl, rfl, hne _ (by decide)⟩)
  · have hmem' : BootStep.processInit ∈ (m.cpu 0).todo.tail := by
      simpa [advance, setCpu] using hmem
    have hfirst := (kernelMain_order (h.suffix 0)).first hmem'
    rw [htodo, Option.some.injEq] at hfirst
    exact absurd hfirst (hne _ (by decide))
  · have hrelease : x ≠ .release d := hne _ (by revert d; decide)
    simp [advance, setCpu, hrelease]

/-- What a step of a list does, unless it is a turn in the wait loop that finds no entry. -/
theorem effect_go (h : Inv image m) {rest : List BootStep} (htodo : (m.cpu c).todo = x :: rest)
    (hexec : m.exec image c x = some m')
    (hwaited : x = .await → m.released c ∧ (m.cpu c).wait = .load) :
    Effect image c x m m' := by
  have hsuffix := h.suffix c
  rw [htodo] at hsuffix
  have hrest : Rest c x (m.cpu c).todo (m.cpu c).todo.tail := by
    rw [htodo]
    exact rest_cons hsuffix
  have hhead : (m.cpu c).todo.head? = some x := by rw [htodo]; rfl
  -- what a core other than CPU 0 finds past its wait loop
  have hpassed : x ≠ .await → (c = 0 → x = .startOnCpu) →
      .processInit ∉ (m.cpu 0).todo ∧ m.sched.table.nextPid = 6 ∧
        m.kernelRoot = image.kernelRootPa ∧ m.userRoot = image.userRootPa := by
    intro hx hzero
    refine h.passed (c := c) (fun hc => ?_) fun _ => (mainOf_order (h.suffix c)).await x hhead hx
    subst hc
    exact (kernelMain_order (h.suffix 0)).start (hhead.trans (congrArg some (hzero rfl)))
  cases x with
  | pagingInit =>
    cases hexec
    refine h.effect_update (advance_setCpu ..) (by decide) hrest
      (h.sched_same (by decide) (by decide) fun _ => rfl) (fun _ => rfl) .inl (.inl rfl) (.inl rfl)
      (fun hx => by cases hx) (fun d => ?_) (.inl ⟨rfl, rfl⟩)
    simp [advance, setCpu]
  | processInit =>
    obtain rfl := eq_zero_of_mem hrest.mem (by decide)
    cases hexec
    have hfresh := h.fresh (List.mem_of_mem_head? hhead)
    refine h.effect_sched (by decide) hhead hrest ?_
    have hsame := h.sched_same (x := .processInit) (c := 0) (by decide) (by decide) fun _ => rfl
    rwa [hfresh] at hsame ⊢
  | setStdin =>
    obtain rfl := eq_zero_of_mem hrest.mem (by decide)
    cases hexec
    exact h.effect_sched (by decide) hhead hrest
      (h.sched_setInitFd 0 (by decide) (by decide) fun _ => rfl)
  | setStdout =>
    obtain rfl := eq_zero_of_mem hrest.mem (by decide)
    cases hexec
    exact h.effect_sched (by decide) hhead hrest
      (h.sched_setInitFd 1 (by decide) (by decide) fun _ => rfl)
  | setStderr =>
    obtain rfl := eq_zero_of_mem hrest.mem (by decide)
    cases hexec
    exact h.effect_sched (by decide) hhead hrest
      (h.sched_setInitFd 2 (by decide) (by decide) fun _ => rfl)
  | createShell =>
    obtain rfl := eq_zero_of_mem hrest.mem (by decide)
    obtain ⟨s, hs, heff⟩ := h.sched_create rfl "shell" image.userStart .user hhead
    rw [exec, hs] at hexec
    cases hexec
    exact h.effect_sched (by decide) hhead hrest heff
  | createIdle =>
    obtain rfl := eq_zero_of_mem hrest.mem (by decide)
    obtain ⟨s, hs, heff⟩ := h.sched_create rfl "idle" image.idleLoop .kernel hhead
    rw [exec, hs] at hexec
    cases hexec
    exact h.effect_sched (by decide) hhead hrest heff
  | release core =>
    cases hexec
    refine h.effect_update rfl (by simp) hrest
      (h.sched_same (by simp [BootStep.creates]) (by simp) fun _ => rfl) (fun _ => rfl) .inl
      (.inr ⟨rfl, by simp, by simp⟩) (.inr ⟨rfl, by simp, by simp⟩) (fun hx => by cases hx)
      (fun d => ?_) (.inr ⟨rfl, rfl, by simp⟩)
    by_cases hd : d = core
    · subst hd
      simp [advance, setCpu]
    · simp [advance, setCpu, hd, Ne.symm hd]
  | sendEvent =>
    cases hexec
    exact {
      rest := by simpa [advance, setCpu] using hrest
      sched := h.sched_same (by decide) (by decide) fun _ => rfl
      fresh := fun _ => rfl
      other := fun d hd => by simp [advance, setCpu, Function.update_of_ne hd]
      event := fun d => by
        by_cases hd : d = c
        · subst hd
          simp [advance, setCpu]
        · simp [advance, setCpu, Function.update_of_ne hd]
      wait := by simp [advance, setCpu]
      calm := by simpa [advance, setCpu] using h.calm c
      irq := by simp [advance, setCpu]
      ttbr1 := .inr (by simp [advance, setCpu])
      ttbr0 := .inr (by simp [advance, setCpu])
      waited := fun hx => by cases hx
      released := fun d => by simp [advance, setCpu]
      roots := .inr ⟨rfl, rfl, by decide⟩ }
  | await =>
    obtain ⟨hreleased, hload⟩ := hwaited rfl
    simp only [exec, waitTurn, hload, hreleased, if_true, Option.some.injEq] at hexec
    subst hexec
    exact h.effect_update rfl (by decide) hrest
      (h.sched_same (by decide) (by decide) fun _ => rfl) (fun _ => rfl) .inl
      (.inr ⟨rfl, by decide, by decide⟩) (.inr ⟨rfl, by decide, by decide⟩) (fun _ => hreleased)
      (fun d => by simp [advance, setCpu]) (.inr ⟨rfl, rfl, by decide⟩)
  | setTtbr1 =>
    have hc : c = 0 → BootStep.setTtbr1 = .startOnCpu := fun hc => by
      subst hc
      exact absurd hrest.mem (by decide)
    obtain ⟨-, -, hroot, -⟩ := hpassed (by decide) hc
    cases hexec
    exact h.effect_update (advance_setCpu ..) (by decide) hrest
      (h.sched_same (by decide) (by decide) fun _ => rfl) (fun _ => rfl) .inl (.inl hroot)
      (.inr ⟨rfl, by decide, by decide⟩) (fun hx => by cases hx)
      (fun d => by simp [advance, setCpu]) (.inr ⟨rfl, rfl, by decide⟩)
  | setTtbr0 =>
    have hc : c = 0 → BootStep.setTtbr0 = .startOnCpu := fun hc => by
      subst hc
      exact absurd hrest.mem (by decide)
    obtain ⟨-, -, -, hroot⟩ := hpassed (by decide) hc
    cases hexec
    exact h.effect_update (advance_setCpu ..) (by decide) hrest
      (h.sched_same (by decide) (by decide) fun _ => rfl) (fun _ => rfl) .inl
      (.inr ⟨rfl, by decide, by decide⟩) (.inl hroot) (fun hx => by cases hx)
      (fun d => by simp [advance, setCpu]) (.inr ⟨rfl, rfl, by decide⟩)
  | initPerCpu =>
    cases hexec
    exact h.effect_update (advance_setCpu ..) (by decide) hrest
      (h.sched_same (by decide) (by decide) fun _ => rfl) (fun _ => rfl) (fun _ => .inr rfl)
      (.inr ⟨rfl, by decide, by decide⟩) (.inr ⟨rfl, by decide, by decide⟩) (fun hx => by cases hx)
      (fun d => by simp [advance, setCpu]) (.inr ⟨rfl, rfl, by decide⟩)
  | startOnCpu =>
    obtain ⟨hinit, hpid, -, -⟩ := hpassed (by decide) fun _ => rfl
    have hcur : m.sched.current c = invalidIdx :=
      (h.current c).mpr (List.mem_of_mem_head? hhead)
    obtain ⟨r, s, hs, hruns, hrun⟩ := h.inv.runs_start hcur (h.inv.queue_ne_nil hpid)
    have hnil : rest = [] := (mainOf_order ((List.suffix_cons _ rest).trans hsuffix)).start
      ((mainOf_order hsuffix).once .startOnCpu rfl (by decide))
    have hunmask : BootStep.initPerCpu ∉ (m.cpu c).todo := by
      rw [htodo, hnil]
      decide
    simp only [exec, hs] at hexec
    cases hexec
    exact h.effect_run hunmask hruns hrun hinit

/-- A timer interrupt puts another process on the CPU. -/
theorem effect_tick (h : Inv image m) (hirq : (m.cpu c).irq) (frame : ℕ) :
    Effect image c .startOnCpu m (m.takeTick c frame) := by
  have hunmask := h.irq c hirq
  have hpassed := h.passed (c := c)
    (fun hc => (kernelMain_order (h.suffix 0)).unmask (hc ▸ hunmask)) fun _ hmem => by
      rcases (mainOf_order (h.suffix c)).unmask hunmask with htodo | htodo <;>
        simp [htodo] at hmem
  have hqueue := h.inv.queue_ne_nil hpassed.2.1
  obtain ⟨r, s, hs, hruns, hput⟩ := h.inv.runs_schedule c frame
  obtain ⟨hcur, -⟩ := hput hqueue
  -- the process that is put there was queued, so it is another
  obtain ⟨x, rest, hq⟩ := List.exists_cons_of_ne_nil hqueue
  have hx : s.current c = x := by rw [hcur, hq]; rfl
  have hne : s.current c ≠ m.sched.current c := by
    rw [hx]
    exact (h.inv.not_current_of_queued (by rw [hq]; exact List.mem_cons_self) c).symm
  have hrun : m.takeTick c frame = m.run c s := by
    simp only [takeTick, hs, orPanic, if_neg hne]
  rw [hrun]
  exact h.effect_run hunmask hruns (hruns.current.resolve_left hne) hpassed.1

/-- The wait loop, and events, change nothing else. -/
theorem waits (h : Inv image m) (w : Wait) (e : Bool)
    (hw : .sendEvent ∉ (m.cpu 0).todo → w = .load ∨ e) :
    Inv image (m.setCpu c { m.cpu c with wait := w, event := e }) := by
  have hcpu : ∀ d, (m.setCpu c { m.cpu c with wait := w, event := e }).cpu d =
      if d = c then { m.cpu d with wait := w, event := e } else m.cpu d := by
    intro d
    by_cases hd : d = c
    · subst hd
      simp [setCpu]
    · simp [setCpu, hd]
  have htodo : ∀ d, ((m.setCpu c { m.cpu c with wait := w, event := e }).cpu d).todo =
      (m.cpu d).todo := fun d => by rw [hcpu]; split <;> rfl
  exact {
    suffix := fun d => by rw [htodo]; exact h.suffix d
    calm := fun d => by rw [hcpu]; split <;> exact h.calm d
    current := fun d => by rw [htodo]; exact h.current d
    irq := fun d => by rw [htodo, hcpu]; split <;> exact h.irq d
    ttbr1 := fun d => by rw [htodo, hcpu]; split <;> exact h.ttbr1 d
    ttbr0 := fun d => by rw [htodo, hcpu]; split <;> exact h.ttbr0 d
    released := fun d => by rw [htodo]; exact h.released d
    await := fun d => by rw [htodo]; exact h.await d
    event := fun d => by
      rw [htodo, hcpu]
      split
      · exact hw
      · exact h.event d
    roots := by rw [htodo]; exact h.roots
    inv := h.inv
    fresh := by rw [htodo]; exact h.fresh
    nextPid := by rw [htodo]; exact h.nextPid
    initFds := by rw [htodo]; exact h.initFds
    slots := h.slots }

end Inv

end Smp

end Ralix.Kernel
