import Mathlib.Data.Finset.Card
import Mathlib.Data.Fintype.Card
import Ralix.Kernel.SchedulerSpec

/-!
# Runs of the scheduler

Runs of `create_with_mode`, `start_on_cpu`, and `schedule_from_irq` from `process::init`, each a
critical section under `PROCESS_TABLE`, in any order and on any CPUs. Every operation keeps `Inv`
(`Inv.create`, `Inv.schedule`, `Inv.start`), so it holds in every state that a run reaches
(`Reachable.inv`). `table_consistent` is what that means for the table: every process is on one CPU
or once on the queue, and nothing is lost, shared, or dropped.
-/

namespace Ralix.Kernel

open Lib ProcessTable

/-- A critical section under `PROCESS_TABLE`. -/
inductive Op where
  | create (name : String) (entry stackTop : ℕ) (mode : ProcessMode) (parent : Option ℕ)
  | start (cpu : Cpu)
  | schedule (cpu : Cpu) (frame : ℕ)

/-- The state after an operation. -/
def Op.run (env : Env) : Op → Sched → Exec Sched
  | create name entry stackTop mode parent, s =>
    .ok (createWithMode env name entry stackTop mode parent s).2
  | start cpu, s => return (← startOnCpu cpu s).2
  | schedule cpu frame, s => return (← scheduleFromIrq cpu frame s).2

/-- A CPU calls `start_on_cpu` only while it runs no process. -/
def Op.Allowed (s : Sched) : Op → Prop
  | start cpu => s.current cpu = invalidIdx
  | _ => True

/-- The states of the runs from `process::init`. -/
inductive Reachable (env : Env) : Sched → Prop
  | init : Reachable env init
  | step {s s' : Sched} {op : Op} :
      Reachable env s → op.Allowed s → op.run env s = .ok s' → Reachable env s'

/-! ## The operations keep the invariant -/

/-- `create_with_mode` keeps the invariant. -/
theorem Inv.create {s : Sched} (h : Inv s) (env : Env) (name : String) (entry stackTop : ℕ)
    (mode : ProcessMode) (parent : Option ℕ) :
    Inv (createWithMode env name entry stackTop mode parent s).2 := by
  rcases Nat.lt_or_ge maxProcs s.table.nextPid with hfull | hfree
  · rw [createWithMode_full env name entry stackTop mode parent fun i =>
      (h.used i).mpr (by have := i.isLt; omega)]
    exact h
  obtain ⟨i, p, t, he, hi, hpid, hqueue, hslot, hwait, hp, -, -, -, -, hother⟩ :=
    createWithMode_free h env name entry stackTop mode parent hfree
  rw [he]
  -- The slot was free, so its index was neither queued nor current.
  have hnone : s.table.slots i = none := by
    rw [← Option.not_isSome_iff_eq_none, h.used]
    omega
  have hold : ∀ {j q}, s.table.slots j = some q → t.slots j = some q := by
    intro j q hq
    rw [hother j (by rintro rfl; rw [hnone] at hq; cases hq), hq]
  have hmem : i.val ∉ s.table.queue := by
    intro hmem
    obtain ⟨j, q, hj, hq, -⟩ := h.queued _ hmem
    rw [← Fin.ext hj, hnone] at hq
    cases hq
  refine ⟨?_, ?_, ?_, ?_, ?_, ?_, ?_⟩
  · show t.queue.Nodup
    rw [hqueue, List.nodup_append]
    refine ⟨h.nodup, List.nodup_singleton _, ?_⟩
    rintro x hx y hy rfl
    exact hmem (List.mem_singleton.mp hy ▸ hx)
  · rintro x (hx : x ∈ t.queue)
    rw [hqueue, List.mem_append, List.mem_singleton] at hx
    rcases hx with hx | rfl
    · obtain ⟨j, q, rfl, hq, hw⟩ := h.queued x hx
      exact ⟨j, q, rfl, hold hq, hw⟩
    · exact ⟨i, p, rfl, hslot, hwait⟩
  · intro c
    rcases h.current c with hc | ⟨j, q, hc, hq, hr⟩
    · exact .inl hc
    · exact .inr ⟨j, q, hc, hold hq, hr⟩
  · rintro j q (hq : t.slots j = some q)
    show _ ∨ _ ∈ t.queue
    rw [hqueue, List.mem_append, List.mem_singleton]
    by_cases hji : j = i
    · exact .inr (.inr (congrArg _ hji))
    · rw [hother j hji] at hq
      exact (h.owned j q hq).imp_right .inl
  · -- The slot in use is the one of the pid that was given out.
    intro j
    show (t.slots j).isSome ↔ j.val + 1 < t.nextPid
    by_cases hji : j = i
    · subst hji
      simp [hslot, hpid, hi]
    · rw [hother j hji, h.used, hpid]
      have hne : j.val ≠ i.val := fun e => hji (Fin.ext e)
      omega
  · rintro j q (hq : t.slots j = some q)
    by_cases hji : j = i
    · subst hji
      rw [hslot] at hq
      cases hq
      omega
    · rw [hother j hji] at hq
      exact h.pid j q hq
  · show 1 ≤ t.nextPid ∧ t.nextPid ≤ maxProcs + 1
    omega

/-- A table with the same pids in the same slots has the slots in use and their pids, if the other
table has. -/
theorem numbered_congr {t t' : ProcessTable}
    (hids : ∀ j, (t'.slots j).map Process.id = (t.slots j).map Process.id)
    (hpid : t'.nextPid = t.nextPid) (hused : ∀ j, (t.slots j).isSome ↔ j.val + 1 < t.nextPid)
    (hnumber : ∀ (j : Fin maxProcs) (q : Process), t.slots j = some q → q.id = j.val + 1) :
    (∀ j, (t'.slots j).isSome ↔ j.val + 1 < t'.nextPid) ∧
      ∀ (j : Fin maxProcs) (q : Process), t'.slots j = some q → q.id = j.val + 1 := by
  constructor
  · intro j
    rw [hpid, ← hused, ← Option.isSome_map (f := Process.id), hids, Option.isSome_map]
  · intro j q hq
    have hid := hids j
    rw [hq, Option.map_some] at hid
    obtain ⟨q', hq', hid'⟩ := Option.map_eq_some_iff.mp hid.symm
    rw [← hid', hnumber j q' hq']

/-- An operation that changes no pid keeps the slots in use and their pids. -/
theorem Inv.of_ids {s : Sched} (h : Inv s) {t : ProcessTable}
    (hids : ∀ j, (t.slots j).map Process.id = (s.table.slots j).map Process.id)
    (hpid : t.nextPid = s.table.nextPid) :
    (∀ j, (t.slots j).isSome ↔ j.val + 1 < t.nextPid) ∧
      ∀ (j : Fin maxProcs) (q : Process), t.slots j = some q → q.id = j.val + 1 :=
  numbered_congr hids hpid h.used h.pid

/-- Putting the first queued process on a CPU, and the CPU's process, if it has one, at the end of
the queue, keeps the invariant. -/
theorem Inv.put {s : Sched} (h : Inv s) {cpu : Cpu} (frame : ℕ) {i : Fin maxProcs} {p : Process}
    {rest : List ℕ} {t : ProcessTable} (hq : s.table.queue = i.val :: rest)
    (hp : s.table.slots i = some p) (hqueue : t.queue = rest ++ leaving s cpu)
    (hpid : t.nextPid = s.table.nextPid) (hi : t.slots i = some (dispatch cpu p))
    (hother : ∀ j, j ≠ i → t.slots j = if s.current cpu = j.val
      then (s.table.slots j).map (suspend frame) else s.table.slots j) :
    Inv ⟨t, Function.update s.current cpu i.val, s.initFds⟩ := by
  have hnd := h.nodup
  rw [hq, List.nodup_cons] at hnd
  have hmem : ∀ {x}, x ∈ rest → x ∈ s.table.queue := fun hx => by
    rw [hq]
    exact List.mem_cons_of_mem _ hx
  have hnot : ∀ c, s.current c ≠ i.val :=
    h.not_current_of_queued (by rw [hq]; exact List.mem_cons_self)
  have hleaving : ∀ {x}, x ∈ leaving s cpu ↔ x = s.current cpu ∧ s.current cpu ≠ invalidIdx := by
    intro x
    unfold leaving
    split <;> simp_all
  -- A process current on another CPU stays as it is.
  have hkeep : ∀ {c j}, c ≠ cpu → s.current c = j.val → t.slots j = s.table.slots j := by
    intro c j hc hj
    rw [hother j fun e => hnot c (e ▸ hj), if_neg]
    intro e
    refine hc (h.current_inj (hj.trans e.symm) ?_)
    rw [hj]
    exact slot_ne_invalidIdx j
  obtain ⟨hused, hids⟩ := h.of_ids (t := t) (fun j => by
    by_cases hj : j = i
    · subst hj
      simp [hi, hp, dispatch]
    · rw [hother j hj]
      split <;> simp [suspend, Function.comp_def]) hpid
  refine ⟨?_, ?_, ?_, ?_, hused, hids, hpid ▸ h.nextPid⟩
  · -- The index that leaves the CPU was current, so it was not queued.
    show t.queue.Nodup
    rw [hqueue, List.nodup_append]
    refine ⟨hnd.2, by unfold leaving; split <;> simp, ?_⟩
    rintro x hx y hy rfl
    exact h.not_current_of_queued (hmem hx) cpu (hleaving.mp hy).1.symm
  · rintro x (hx : x ∈ t.queue)
    rw [hqueue, List.mem_append] at hx
    rcases hx with hx | hx
    · obtain ⟨j, q, rfl, hq', hw⟩ := h.queued x (hmem hx)
      have hji : j ≠ i := by
        rintro rfl
        exact hnd.1 hx
      refine ⟨j, q, rfl, ?_, hw⟩
      show t.slots j = some q
      rw [hother j hji, if_neg (h.not_current_of_queued (hmem hx) cpu), hq']
    · obtain ⟨rfl, hvalid⟩ := hleaving.mp hx
      obtain ⟨j, q, hj, hq', -⟩ := (h.current cpu).resolve_left hvalid
      refine ⟨j, suspend frame q, hj, ?_, ⟨rfl, rfl, rfl⟩⟩
      show t.slots j = some _
      rw [hother j fun e => hnot cpu (e ▸ hj), if_pos hj, hq', Option.map_some]
  · intro c
    by_cases hc : c = cpu
    · subst hc
      exact .inr ⟨i, dispatch c p, Function.update_self .., hi, ⟨rfl, rfl⟩⟩
    · rw [show (⟨t, Function.update s.current cpu i.val, s.initFds⟩ : Sched).current c =
        s.current c from Function.update_of_ne hc ..]
      refine (h.current c).imp_right ?_
      rintro ⟨j, q, hj, hq', hr⟩
      exact ⟨j, q, hj, (hkeep hc hj).trans hq', hr⟩
  · -- The process that was taken is current, the one that left is queued, and no other moved.
    rintro j q (hq' : t.slots j = some q)
    show (∃ c, Function.update s.current cpu i.val c = j.val) ∨ j.val ∈ t.queue
    by_cases hji : j = i
    · exact .inl ⟨cpu, by rw [Function.update_self, hji]⟩
    rw [hqueue, List.mem_append]
    by_cases hcj : s.current cpu = j.val
    · exact .inr (.inr (hleaving.mpr ⟨hcj.symm, hcj ▸ slot_ne_invalidIdx j⟩))
    · rw [hother j hji, if_neg hcj] at hq'
      rcases h.owned j q hq' with ⟨c, hc⟩ | hmem'
      · refine .inl ⟨c, ?_⟩
        rw [Function.update_of_ne (by rintro rfl; exact hcj hc), hc]
      · rw [hq, List.mem_cons] at hmem'
        exact .inr (.inl (hmem'.resolve_left fun e => hji (Fin.ext e)))

/-- `schedule_from_irq` keeps the invariant. -/
theorem Inv.schedule {s s' : Sched} (h : Inv s) {cpu : Cpu} {frame r : ℕ}
    (hs : scheduleFromIrq cpu frame s = .ok (r, s')) : Inv s' := by
  rcases hq : s.table.queue with _ | ⟨x, rest⟩
  · obtain ⟨t, he, hqueue, hpid, hslots⟩ := scheduleFromIrq_idle h cpu frame hq
    rw [he] at hs
    cases hs
    obtain ⟨hused, hids⟩ := h.of_ids (t := t)
      (fun j => by rw [hslots]; split <;> simp [resume, Function.comp_def]) hpid
    refine ⟨?_, ?_, ?_, ?_, hused, hids, hpid ▸ h.nextPid⟩
    · show t.queue.Nodup
      simp [hqueue]
    · rintro x (hx : x ∈ t.queue)
      simp [hqueue] at hx
    · intro c
      refine (h.current c).imp_right ?_
      rintro ⟨j, q, hc, hq', hr⟩
      by_cases hj : s.current cpu = j.val
      · -- The interrupted process itself, put back on its CPU.
        have hcpu : c = cpu := h.current_inj (hc.trans hj.symm) (hc ▸ slot_ne_invalidIdx j)
        refine ⟨j, resume cpu frame q, hc, ?_, ⟨rfl, by rw [hcpu]; rfl⟩⟩
        show t.slots j = some _
        rw [hslots, if_pos hj, hq', Option.map_some]
      · refine ⟨j, q, hc, ?_, hr⟩
        show t.slots j = some q
        rw [hslots, if_neg hj, hq']
    · rintro j q (hq' : t.slots j = some q)
      have hsome : (s.table.slots j).isSome := by
        rw [h.used, ← hpid, ← hused, hq']
        rfl
      obtain ⟨q', hq''⟩ := Option.isSome_iff_exists.mp hsome
      exact (h.owned j q' hq'').imp_right fun hmem => by simp [hq] at hmem
  · obtain ⟨i, p, rfl, hp, -⟩ := h.queued x (by rw [hq]; exact List.mem_cons_self)
    obtain ⟨t, he, hqueue, hpid, hi, hother⟩ := scheduleFromIrq_switch h cpu frame hq hp
    rw [he] at hs
    cases hs
    exact h.put frame hq hp hqueue hpid hi hother

/-- `start_on_cpu` keeps the invariant. -/
theorem Inv.start {s s' : Sched} (h : Inv s) {cpu : Cpu} {r : ℕ × ℕ}
    (hc : s.current cpu = invalidIdx) (hs : startOnCpu cpu s = .ok (r, s')) : Inv s' := by
  match hq : s.table.queue with
  | [] =>
    rw [startOnCpu_nil cpu hq] at hs
    cases hs
  | x :: rest =>
    obtain ⟨i, p, rfl, hp, -⟩ := h.queued x (by rw [hq]; exact List.mem_cons_self)
    obtain ⟨t, he, hqueue, hpid, hi, hother⟩ := startOnCpu_cons h cpu hq hp
    rw [he] at hs
    cases hs
    refine h.put 0 hq hp ?_ hpid hi fun j hj => ?_
    · simp [hqueue, leaving, hc]
    · rw [hother j hj, hc, if_neg (slot_ne_invalidIdx j).symm]

/-- Every operation keeps the invariant. -/
theorem Inv.run {s s' : Sched} (h : Inv s) {env : Env} {op : Op} (ha : op.Allowed s)
    (hs : op.run env s = .ok s') : Inv s' := by
  cases op with
  | create name entry stackTop mode parent =>
    cases hs
    exact h.create env name entry stackTop mode parent
  | start cpu =>
    obtain ⟨⟨r, s''⟩, hr, hs'⟩ := Exec.bind_eq_ok.mp hs
    cases hs'
    exact h.start ha hr
  | schedule cpu frame =>
    obtain ⟨⟨r, s''⟩, hr, hs'⟩ := Exec.bind_eq_ok.mp hs
    cases hs'
    exact h.schedule hr

/-- The invariant holds in every state that a run reaches. -/
theorem Reachable.inv {env : Env} {s : Sched} (h : Reachable env s) : Inv s := by
  induction h with
  | init => exact Inv.init
  | step _ ha hs ih => exact ih.run ha hs

/-! ## What the invariant means for the table -/

/-- The slots in use. -/
def Sched.processes (s : Sched) : Finset (Fin maxProcs) :=
  Finset.univ.filter fun i => (s.table.slots i).isSome

/-- The CPUs that run a process. -/
def Sched.started (s : Sched) : Finset Cpu := Finset.univ.filter fun c => s.current c ≠ invalidIdx

/-- The five places that describe a process agree on it. -/
structure Sched.Consistent (s : Sched) : Prop where
  /-- A process is `Running` on the one CPU where it is current and not queued, or it is `Ready`,
  runs nowhere, and is queued once. -/
  slot : ∀ (i : Fin maxProcs) (p : Process), s.table.slots i = some p →
    (p.state = .running ∧ i.val ∉ s.table.queue ∧
      ∃ c : Cpu, p.runningOn = c.val ∧ s.current c = i.val ∧ ∀ d, s.current d = i.val → d = c) ∨
    (p.state = .ready ∧ p.runningOn = cpuNone ∧ p.inRunQueue = true ∧
      s.table.queue.count i.val = 1)
  /-- Nothing but the slots of `Ready` processes is queued. -/
  queue : ∀ x ∈ s.table.queue, ∃ (i : Fin maxProcs) (p : Process),
    x = i.val ∧ s.table.slots i = some p ∧ p.state = .ready
  /-- No two CPUs share a current process. -/
  current : ∀ c d, s.current c = s.current d → c = d ∨ s.current c = invalidIdx
  /-- The pids are distinct. -/
  pids : ∀ (i j : Fin maxProcs) (p q : Process), s.table.slots i = some p →
    s.table.slots j = some q → p.id = q.id → i = j

/-- The invariant makes the table consistent. -/
theorem Inv.consistent {s : Sched} (h : Inv s) : s.Consistent where
  slot i p hp := by
    rcases h.owned i p hp with ⟨c, hc⟩ | hmem
    · left
      -- the CPU that owns the process is the only one that has it
      have hvalid : s.current c ≠ invalidIdx := hc ▸ slot_ne_invalidIdx i
      obtain ⟨j, q, hj, hq, hr⟩ := (h.current c).resolve_left hvalid
      rw [← Fin.ext (hc.symm.trans hj), hp] at hq
      cases hq
      refine ⟨hr.state, fun hmem => h.not_current_of_queued hmem c hc, c, hr.runningOn, hc, ?_⟩
      intro d hd
      exact (h.current_inj (hc.trans hd.symm) hvalid).symm
    · right
      obtain ⟨j, q, hj, hq, hw⟩ := h.queued _ hmem
      rw [← Fin.ext hj, hp] at hq
      cases hq
      exact ⟨hw.state, hw.runningOn, hw.inRunQueue, List.count_eq_one_of_mem h.nodup hmem⟩
  queue x hx := by
    obtain ⟨i, p, hi, hp, hw⟩ := h.queued x hx
    exact ⟨i, p, hi, hp, hw.state⟩
  current c d hcd := by
    by_cases hc : s.current c = invalidIdx
    · exact .inr hc
    · exact .inl (h.current_inj hcd hc)
  pids i j p q hp hq hid := by
    have hi := h.pid i p hp
    have hj := h.pid j q hq
    exact Fin.ext (by omega)

/-- With nothing queued, every process is current on a CPU, so there are no more processes than
started CPUs. -/
theorem Inv.card_processes_le {s : Sched} (h : Inv s) (hq : s.table.queue = []) :
    s.processes.card ≤ s.started.card := by
  have hsub : s.processes.image Fin.val ⊆ s.started.image s.current := by
    intro x hx
    obtain ⟨i, hi, rfl⟩ := Finset.mem_image.mp hx
    obtain ⟨p, hp⟩ := Option.isSome_iff_exists.mp (Finset.mem_filter.mp hi).2
    rcases h.owned i p hp with ⟨c, hc⟩ | hmem
    · refine Finset.mem_image.mpr ⟨c, ?_, hc⟩
      simpa [Sched.started, hc] using slot_ne_invalidIdx i
    · simp [hq] at hmem
  calc s.processes.card = (s.processes.image Fin.val).card :=
        (Finset.card_image_of_injective _ Fin.val_injective).symm
    _ ≤ (s.started.image s.current).card := Finset.card_le_card hsub
    _ ≤ s.started.card := Finset.card_image_le

/-- What an operation of the run finds when it comes next: no entry is dropped from the queue, a
failed creation changes nothing, and the `expect` of `start_on_cpu` holds. -/
structure Sched.Serves (env : Env) (s : Sched) : Prop where
  /-- A creation that fails leaves the state as it is. -/
  create_none : ∀ name entry stackTop mode parent,
    (createWithMode env name entry stackTop mode parent s).1 = none →
      (createWithMode env name entry stackTop mode parent s).2 = s
  /-- A creation that succeeds adds one index to the end of the queue. -/
  create_some : ∀ name entry stackTop mode parent pid,
    (createWithMode env name entry stackTop mode parent s).1 = some pid →
      ∃ i : Fin maxProcs, (createWithMode env name entry stackTop mode parent s).2.table.queue =
        s.table.queue ++ [i.val]
  /-- `schedule_from_irq` never stops. It takes the first index of the queue, if there is one, and
  then adds the index that leaves the CPU. -/
  schedule : ∀ cpu frame, ∃ r s', scheduleFromIrq cpu frame s = .ok (r, s') ∧ s'.table.queue =
    if s.table.queue = [] then [] else s.table.queue.tail ++ leaving s cpu
  /-- `start_on_cpu` finds a process while there are more processes than started CPUs. -/
  start : ∀ cpu, s.started.card < s.processes.card → ∃ r s', startOnCpu cpu s = .ok (r, s') ∧
    s'.table.queue = s.table.queue.tail

/-- The invariant lets every operation through. -/
theorem Inv.serves {s : Sched} (h : Inv s) (env : Env) : s.Serves env where
  create_none name entry stackTop mode parent hnone := by
    rcases Nat.lt_or_ge maxProcs s.table.nextPid with hfull | hfree
    · rw [createWithMode_full env name entry stackTop mode parent fun i =>
        (h.used i).mpr (by have := i.isLt; omega)]
    · obtain ⟨i, p, t, he, -⟩ :=
        createWithMode_free h env name entry stackTop mode parent hfree
      rw [he] at hnone
      cases hnone
  create_some name entry stackTop mode parent pid hsome := by
    rcases Nat.lt_or_ge maxProcs s.table.nextPid with hfull | hfree
    · rw [createWithMode_full env name entry stackTop mode parent fun i =>
        (h.used i).mpr (by have := i.isLt; omega)] at hsome
      cases hsome
    · obtain ⟨i, p, t, he, -, -, hqueue, -⟩ :=
        createWithMode_free h env name entry stackTop mode parent hfree
      exact ⟨i, by rw [he]; exact hqueue⟩
  schedule cpu frame := by
    match hq : s.table.queue with
    | [] =>
      obtain ⟨t, he, hqueue, -⟩ := scheduleFromIrq_idle h cpu frame hq
      exact ⟨_, _, he, hqueue⟩
    | x :: rest =>
      obtain ⟨i, p, rfl, hp, -⟩ := h.queued x (by rw [hq]; exact List.mem_cons_self)
      obtain ⟨t, he, hqueue, -⟩ := scheduleFromIrq_switch h cpu frame hq hp
      exact ⟨_, _, he, hqueue⟩
  start cpu hcard := by
    match hq : s.table.queue with
    -- an empty queue would leave no process without a started CPU
    | [] => exact absurd (h.card_processes_le hq) (Nat.not_le.mpr hcard)
    | x :: rest =>
      obtain ⟨i, p, rfl, hp, -⟩ := h.queued x (by rw [hq]; exact List.mem_cons_self)
      obtain ⟨t, he, hqueue, -⟩ := startOnCpu_cons h cpu hq hp
      exact ⟨_, _, he, hqueue⟩

/-- In every state of every run, the table is consistent and every operation is let through. -/
theorem table_consistent (env : Env) (s : Sched) (h : Reachable env s) :
    s.Consistent ∧ s.Serves env :=
  ⟨h.inv.consistent, h.inv.serves env⟩

/-- An image whose process stacks lie at 16 MiB. -/
def sampleEnv : Env := ⟨0x1000000, 0, by decide, by decide⟩

/-- `table_consistent` after the first creation. -/
theorem table_consistent_create :
    (createWithMode sampleEnv "shell" 0x80000 0 .user none init).2.Consistent ∧
      (createWithMode sampleEnv "shell" 0x80000 0 .user none init).2.Serves sampleEnv := by
  have hallowed : (Op.create "shell" 0x80000 0 .user none).Allowed init := trivial
  exact table_consistent sampleEnv _ (.step .init hallowed rfl)

end Ralix.Kernel
