import Ralix.Kernel.Calls
import Ralix.Kernel.Vfs

/-!
# Who changes a descriptor table

Runs in which processes are created, scheduled, and started on CPUs, files are opened and closed by
whichever process is current on a CPU, and `set_fd` and `set_init_fd` are called, in any order. The
process that a system call acts on is found through `CURRENT`, so that it is the right one is a
matter of the scheduler's invariant: `Housed` is what is needed of it, and it holds in every run
(`Housed.of_trace`). `fds_isolated` says what follows for the descriptor tables: each belongs to one
process, and no call of another process touches it.
-/

namespace Ralix.Kernel

open Lib ProcessTable Arch
open Dtb (Memory)

/-- A step of a run with open files. -/
inductive FdEvent where
  | op (op : Op)
  | sysOpen (cpu : Cpu) (mem : Memory) (frame : TrapFrame)
  | sysClose (cpu : Cpu) (frame : TrapFrame)
  | setFd (pid fd : ℕ) (desc : Option FileDesc)
  | setInitFd (fd : ℕ) (desc : Option FileDesc)

/-- The state after an event. -/
def FdEvent.run (env : Env) : FdEvent → Sched → Exec Sched
  | op o, s => o.run env s
  | sysOpen cpu mem frame, s => return (← Kernel.sysOpen cpu mem frame s).2
  | sysClose cpu frame, s => return (← Kernel.sysClose cpu frame s).2
  | setFd pid fd desc, s => .ok (Kernel.setFd pid fd desc s).2
  | setInitFd fd desc, s => .ok (Kernel.setInitFd fd desc s)

/-- An event that returned. -/
def FdEvent.Step (env : Env) (s : Sched) (e : FdEvent) (s' : Sched) : Prop := e.run env s = .ok s'

/-! ## What the calls on descriptors did -/

/-- What a call on descriptors did: nothing, or it gave a process of some kind another table. -/
inductive Edits (target : Fin maxProcs → Process → Prop) (s : Sched) : Sched → Prop
  | none : Edits target s s
  | edit (i : Fin maxProcs) (p : Process) (fds : FdTable) (slot : s.table.slots i = some p)
      (acts : target i p) :
      Edits target s { s with table := s.table.setSlot i (some { p with fds }) }

section Edits

variable {s s' : Sched} {cpu : Cpu}

/-- `with_current_mut` finds no process, or works on the one that is current. -/
theorem withCurrentMut_cases {α : Type} {f : Process → α × Process} {r : Option α}
    (h : withCurrentMut cpu f s = .ok (r, s')) : r = none ∧ s' = s ∨
      ∃ (i : Fin maxProcs) (p : Process), s.current cpu = i.val ∧ s.table.slots i = some p ∧
        r = some (f p).1 ∧ s' = { s with table := s.table.setSlot i (some (f p).2) } := by
  unfold withCurrentMut at h
  split at h
  · cases h
    exact .inl ⟨rfl, rfl⟩
  obtain ⟨slot, hslot, h⟩ := Exec.bind_eq_ok.mp h
  have hlt : s.current cpu < maxProcs := by
    by_contra hge
    rw [ProcessTable.get, dif_neg hge] at hslot
    cases hslot
  obtain ⟨i, hi⟩ : ∃ i : Fin maxProcs, s.current cpu = i.val := ⟨⟨_, hlt⟩, rfl⟩
  rw [hi, get_val] at hslot
  cases hslot
  rw [hi] at h
  cases hp : s.table.slots i with
  | none =>
    rw [hp] at h
    cases h
    exact .inl ⟨rfl, rfl⟩
  | some p =>
    rw [hp] at h
    simp only [modify_val, hp, Option.map_some, Exec.ok_bind, Exec.pure_eq] at h
    cases h
    exact .inr ⟨i, p, hi, hp, rfl, rfl⟩

/-- `alloc_fd_current` fails and changes nothing, or edits the current process. -/
theorem allocFdCurrent_cases {desc : FileDesc} {r : Option (Fin maxFds)}
    (h : allocFdCurrent cpu desc s = .ok (r, s')) :
    Edits (fun i _ => s.current cpu = i.val) s s' ∧ (r = none → s' = s) := by
  obtain ⟨⟨fd, s''⟩, hfd, h⟩ := Exec.bind_eq_ok.mp h
  cases h
  rcases withCurrentMut_cases hfd with ⟨rfl, rfl⟩ | ⟨i, p, hi, hp, rfl, rfl⟩
  · exact ⟨.none, fun _ => rfl⟩
  · unfold allocFd
    cases hfree : (List.finRange maxFds).find? fun fd => (p.fds fd).isNone with
    | none =>
      -- The process is written back as it was.
      have hset : s.table.setSlot i (some p) = s.table := by
        rw [← hp, setSlot, Function.update_eq_self]
      rw [hset]
      exact ⟨.none, fun _ => rfl⟩
    | some fd => exact ⟨.edit i p _ hp hi, fun hnone => by cases hnone⟩

/-- `close_fd_current` fails and changes nothing, or edits the current process. -/
theorem closeFdCurrent_cases {fd : ℕ} {r : Bool} (h : closeFdCurrent cpu fd s = .ok (r, s')) :
    Edits (fun i _ => s.current cpu = i.val) s s' ∧ (r = false → s' = s) := by
  unfold closeFdCurrent at h
  split at h
  · obtain ⟨⟨closed, s''⟩, hclosed, h⟩ := Exec.bind_eq_ok.mp h
    cases h
    rcases withCurrentMut_cases hclosed with ⟨rfl, rfl⟩ | ⟨i, p, hi, hp, rfl, rfl⟩
    · exact ⟨.none, fun _ => rfl⟩
    · exact ⟨.edit i p _ hp hi, nofun⟩
  · cases h
    exact ⟨.none, fun _ => rfl⟩

/-- A descriptor is no failure. -/
theorem fd_ne_failure (fd : Fin maxFds) : BitVec.ofNat 64 fd ≠ failure := by
  have hfd := fd.isLt
  unfold maxFds at hfd
  intro h
  have hnat := congrArg BitVec.toNat h
  rw [BitVec.toNat_ofNat, failure, BitVec.toNat_allOnes] at hnat
  omega

/-- An `open` that fails changes nothing, and any other edits the current process. -/
theorem sysOpen_cases {mem : Memory} {frame frame' : TrapFrame}
    (h : sysOpen cpu mem frame s = .ok (frame', s')) :
    Edits (fun i _ => s.current cpu = i.val) s s' ∧ (reg frame' 0 = failure → s' = s) := by
  unfold sysOpen at h
  dsimp only at h
  split at h
  · cases h
    exact ⟨.none, fun _ => rfl⟩
  split at h
  · cases h
    exact ⟨.none, fun _ => rfl⟩
  · obtain ⟨⟨fd, s''⟩, hfd, h⟩ := Exec.bind_eq_ok.mp h
    obtain ⟨hedits, hfail⟩ := allocFdCurrent_cases hfd
    cases fd with
    | none =>
      cases h
      exact ⟨hedits, fun _ => hfail rfl⟩
    | some fd =>
      cases h
      exact ⟨hedits, fun hreg => absurd hreg (fd_ne_failure fd)⟩

/-- A `close` that fails changes nothing, and any other edits the current process. -/
theorem sysClose_cases {frame frame' : TrapFrame} (h : sysClose cpu frame s = .ok (frame', s')) :
    Edits (fun i _ => s.current cpu = i.val) s s' ∧ (reg frame' 0 = failure → s' = s) := by
  obtain ⟨⟨closed, s''⟩, hclosed, h⟩ := Exec.bind_eq_ok.mp h
  obtain ⟨hedits, hfail⟩ := closeFdCurrent_cases hclosed
  cases h
  refine ⟨hedits, fun hreg => hfail ?_⟩
  cases closed with
  | false => rfl
  | true =>
    have hzero : (0 : BitVec 64) = failure := hreg
    exact absurd hzero (by decide)

/-- `set_fd` changes nothing, or edits a process with the pid. -/
theorem setFd_cases (pid fd : ℕ) (desc : Option FileDesc) (s : Sched) :
    Edits (fun _ p => p.id = pid) s (setFd pid fd desc s).2 := by
  unfold setFd
  split
  · split
    · exact .none
    · rename_i i htarget
      have hany : (s.table.slots i).any (·.id = pid) = true := by
        rw [slotOfPid] at htarget
        simpa using List.find?_some htarget
      obtain ⟨p, hp, hid⟩ := (Option.any_eq_true _ _).mp hany
      simp only [hp, Option.map_some]
      exact .edit i p _ hp (of_decide_eq_true hid)
  · exact .none

end Edits

/-! ## The invariant -/

/-- How the table, the queue, and the `CURRENT` indices agree, whichever CPUs are started when. -/
structure Housed (s : Sched) : Prop where
  placed : Placed s
  /-- The process that is current on a CPU is `Running`. -/
  running : ∀ c (k : Fin maxProcs) (r : Process), s.current c = k.val →
    s.table.slots k = some r → r.state = .running
  /-- The slots in use are the first `next_pid - 1`. -/
  used : ∀ i, (s.table.slots i).isSome ↔ i.val + 1 < s.table.nextPid
  /-- The pid of a slot's process is one more than its index. -/
  pid : ∀ (i : Fin maxProcs) (p : Process), s.table.slots i = some p → p.id = i.val + 1
  /-- `next_pid` starts at one and never passes the table. -/
  nextPid : 1 ≤ s.table.nextPid ∧ s.table.nextPid ≤ maxProcs + 1

/-- The pid and the descriptors of the process in a slot. -/
def ProcessTable.files (t : ProcessTable) (i : Fin maxProcs) : Option (ℕ × FdTable) :=
  (t.slots i).map fun p => (p.id, p.fds)

/-- The files of a slot are those of its process. -/
theorem files_of_slot {t : ProcessTable} {i : Fin maxProcs} {p : Process} (h : t.slots i = some p) :
    t.files i = some (p.id, p.fds) := by rw [ProcessTable.files, h, Option.map_some]

/-- What a change of fields besides pid and descriptors leaves of the files. -/
theorem files_map (slot : Option Process) {f : Process → Process}
    (hf : ∀ p, (f p).id = p.id ∧ (f p).fds = p.fds) :
    (slot.map f).map (fun p => (p.id, p.fds)) = slot.map fun p => (p.id, p.fds) := by
  rw [Option.map_map]
  congr 1
  funext p
  exact Prod.ext (hf p).1 (hf p).2

/-- A process that gets another descriptor table keeps everything else. -/
theorem map_slots_setFds {t : ProcessTable} {i : Fin maxProcs} {p : Process} (hslot : t.slots i = some p)
    (fds : FdTable) {β : Type} {f : Process → β} (hf : ∀ q : Process, f { q with fds } = f q)
    (j : Fin maxProcs) :
    ((t.setSlot i (some { p with fds })).slots j).map f = (t.slots j).map f := by
  by_cases hji : j = i
  · rw [hji, setSlot_slots_self, hslot, Option.map_some, Option.map_some, hf]
  · rw [setSlot_slots_of_ne hji]

section Files

variable {s s' : Sched} {cpu : Cpu}

/-- `schedule_from_irq` leaves every process its files. -/
theorem Schedules.files {frame r : ℕ} (h : Schedules cpu frame s r s') (j : Fin maxProcs) :
    s'.table.files j = s.table.files j := by
  have hleave : ∀ p : Process, (leave frame p).id = p.id ∧ (leave frame p).fds = p.fds := by
    intro p
    unfold leave suspend
    split
    · exact ⟨rfl, rfl⟩
    · exact ⟨rfl, rfl⟩
  cases h with
  | @resume t hpass hqueue hslots =>
    show (t.slots j).map _ = _
    rw [hslots]
    split
    · exact files_map _ fun p => ⟨rfl, rfl⟩
    · rfl
  | @switch t i p pre post htakes hqueue htaken hother =>
    show (t.slots j).map _ = _
    by_cases hji : j = i
    · rw [hji, htaken, files_of_slot htakes.slot]
      rfl
    · rw [hother j hji]
      split
      · exact files_map _ hleave
      · rfl

/-- `start_on_cpu` leaves every process its files. -/
theorem Starts.files (h : Starts cpu s s') (j : Fin maxProcs) :
    s'.table.files j = s.table.files j := by
  cases h with
  | @start t i p pre post htakes hqueue htaken hother =>
    show (t.slots j).map _ = _
    by_cases hji : j = i
    · rw [hji, htaken, files_of_slot htakes.slot]
      rfl
    · rw [hother j hji]
      rfl

/-- It leaves `next_pid`, too. -/
theorem startOnCpu_nextPid (h : Placed s) {r : ℕ × ℕ} (hs : startOnCpu cpu s = .ok (r, s')) :
    s'.table.nextPid = s.table.nextPid := by
  rcases h.takes with hpass | ⟨i, p, pre, post, htakes⟩
  · rw [startOnCpu_none cpu hpass] at hs
    cases hs
  · obtain ⟨t, he, -, hpid, -⟩ :=
      startOnCpu_some cpu htakes.queue htakes.passed htakes.slot htakes.takeable
    rw [he] at hs
    cases hs
    exact hpid

/-- So does `schedule_from_irq`. -/
theorem scheduleFromIrq_nextPid (h : Placed s) {frame r : ℕ}
    (hs : scheduleFromIrq cpu frame s = .ok (r, s')) : s'.table.nextPid = s.table.nextPid := by
  rcases h.takes with hpass | ⟨i, p, pre, post, htakes⟩
  · obtain ⟨t, he, -, hpid, -⟩ := scheduleFromIrq_none (h.settled cpu) frame hpass
    rw [he] at hs
    cases hs
    exact hpid
  · obtain ⟨t, he, -, hpid, -⟩ := scheduleFromIrq_some (h.settled cpu) frame htakes.queue
      htakes.passed htakes.slot htakes.takeable
    rw [he] at hs
    cases hs
    exact hpid

/-- A slot with the same files has a process with the same pid. -/
theorem ids_of_files {t t' : ProcessTable} {j : Fin maxProcs} (h : t'.files j = t.files j) :
    (t'.slots j).map Process.id = (t.slots j).map Process.id := by
  have hfst := congrArg (Option.map Prod.fst) h
  rw [ProcessTable.files, ProcessTable.files, Option.map_map, Option.map_map] at hfst
  exact hfst

namespace Housed

/-- The state after `process::init`. -/
theorem init : Housed init where
  placed := Placed.init
  running _ _ _ _ hr := by cases hr
  used := by simp [Kernel.init]
  pid := by simp [Kernel.init]
  nextPid := by simp [Kernel.init]

/-- What keeps the pids keeps the numbering. -/
theorem of_ids (h : Housed s) (hplaced : Placed s')
    (hrunning : ∀ c (k : Fin maxProcs) (r : Process), s'.current c = k.val →
      s'.table.slots k = some r → r.state = .running)
    (hids : ∀ j, (s'.table.slots j).map Process.id = (s.table.slots j).map Process.id)
    (hpid : s'.table.nextPid = s.table.nextPid) : Housed s' := by
  obtain ⟨hused, hnumber⟩ := numbered_congr hids hpid h.used h.pid
  exact ⟨hplaced, hrunning, hused, hnumber, hpid ▸ h.nextPid⟩

/-- A process that a CPU takes is `Running` there, and the current processes of the other CPUs stay as
they are. -/
theorem running_put (h : Housed s) {t : ProcessTable} {i : Fin maxProcs} {p : Process}
    (htaken : t.slots i = some (dispatch cpu p))
    (hother : ∀ j, j ≠ i → s.current cpu ≠ j.val → t.slots j = s.table.slots j) (c : Cpu)
    (k : Fin maxProcs) (r : Process) (hk : Function.update s.current cpu i.val c = k.val)
    (hr : t.slots k = some r) : r.state = .running := by
  by_cases hki : k = i
  · rw [hki, htaken] at hr
    cases hr
    rfl
  · have hc : c ≠ cpu := by
      rintro rfl
      rw [Function.update_self] at hk
      exact hki (Fin.ext hk.symm)
    rw [Function.update_of_ne hc] at hk
    have hcpu : s.current cpu ≠ k.val := fun e => hc (h.placed.current_inj hk e)
    exact h.running c k r hk ((hother k hki hcpu).symm.trans hr)

/-- `schedule_from_irq` keeps the invariant. -/
theorem schedule (h : Housed s) {frame r : ℕ} (hs : scheduleFromIrq cpu frame s = .ok (r, s')) :
    Housed s' := by
  have hschedules := h.placed.schedules hs
  have hids := fun j => ids_of_files (hschedules.files j)
  refine h.of_ids (h.placed.schedule hschedules) ?_ hids (scheduleFromIrq_nextPid h.placed hs)
  cases hschedules with
  | @resume t hpass hqueue hslots =>
    rintro c k q hk (hq : t.slots k = some q)
    rw [hslots] at hq
    split at hq
    · obtain ⟨q', -, rfl⟩ := Option.map_eq_some_iff.mp hq
      rfl
    · exact h.running c k q hk hq
  | @switch t i p pre post htakes hqueue htaken hother =>
    exact h.running_put htaken fun j hj hc => by rw [hother j hj, if_neg hc]

/-- `start_on_cpu` keeps the invariant. -/
theorem start (h : Housed s) {r : ℕ × ℕ} (hs : startOnCpu cpu s = .ok (r, s')) : Housed s' := by
  have hstarts := h.placed.starts hs
  have hids := fun j => ids_of_files (hstarts.files j)
  refine h.of_ids (h.placed.start hstarts) ?_ hids (startOnCpu_nextPid h.placed hs)
  cases hstarts with
  | @start t i p pre post htakes hqueue htaken hother =>
    exact h.running_put htaken fun j hj _ => hother j hj

/-- With a free slot, the first one is that of the next pid. -/
theorem freeSlot_val (h : Housed s) {i : Fin maxProcs} (hfree : freeSlot s.table = some i) :
    i.val + 1 = s.table.nextPid := by
  have hnone : ¬(s.table.slots i).isSome := by simp [slots_of_freeSlot hfree]
  rw [h.used] at hnone
  -- The slots below the first free one are in use.
  rw [freeSlot, List.find?_eq_some_iff_getElem] at hfree
  obtain ⟨-, n, hn, hni, hbefore⟩ := hfree
  have hval : n = i.val := by simpa using congrArg Fin.val hni
  have hpos := h.nextPid
  by_contra hne
  have hlt : s.table.nextPid - 1 < n := by omega
  have hslot := hbefore (s.table.nextPid - 1) hlt
  have hused := h.used ⟨s.table.nextPid - 1, by omega⟩
  simp only [List.getElem_finRange, Fin.cast_mk, Bool.not_eq_true', Option.isNone_eq_false_iff] at hslot
  rw [hslot] at hused
  have := hused.mp rfl
  dsimp only at this
  omega

/-- `create_with_mode` keeps the invariant. -/
theorem create (h : Housed s) (env : Env) (name : String) (entry stackTop : ℕ) (mode : ProcessMode)
    (parent : Option ℕ) : Housed (createWithMode env name entry stackTop mode parent s).2 := by
  have hplaced := h.placed.create (h.placed.creates env name entry stackTop mode parent)
  cases hfree : freeSlot s.table with
  | none =>
    rw [createWithMode_none env name entry stackTop mode parent hfree]
    exact h
  | some i =>
    have hnone := slots_of_freeSlot hfree
    have hval := h.freeSlot_val hfree
    obtain ⟨hmem, hcur⟩ := h.placed.free hnone
    obtain ⟨p, t, he, hnext, -, hslot, -, hid, -, -, -, -, hother⟩ :=
      createWithMode_some env name entry stackTop mode parent hfree (h.placed.length_lt hmem)
    rw [he] at hplaced ⊢
    have hi := i.isLt
    have hnext' : t.nextPid = s.table.nextPid + 1 := by
      unfold maxProcs at hi
      omega
    -- the free slot is the one after all processes, so slots and pids stay in step
    refine ⟨hplaced, fun c k r hk hr => ?_, fun j => ?_, fun j q hq => ?_, ?_⟩
    · have hki : k ≠ i := fun e => hcur c (hk.trans (congrArg _ e))
      exact h.running c k r hk ((hother k hki).symm.trans hr)
    · show (t.slots j).isSome ↔ j.val + 1 < t.nextPid
      by_cases hji : j = i
      · rw [hji, hslot, hnext']
        simp only [Option.isSome_some, true_iff]
        omega
      · have hne : j.val ≠ i.val := fun e => hji (Fin.ext e)
        rw [hother j hji, h.used, hnext']
        omega
    · change t.slots j = some q at hq
      by_cases hji : j = i
      · rw [hji, hslot] at hq
        cases hq
        rw [hji, hid, hval]
      · rw [hother j hji] at hq
        exact h.pid j q hq
    · show 1 ≤ t.nextPid ∧ t.nextPid ≤ maxProcs + 1
      omega

/-- Every operation keeps the invariant. -/
theorem op (h : Housed s) {env : Env} {o : Op} (hs : o.Step env s s') : Housed s' := by
  cases o with
  | create name entry stackTop mode parent =>
    cases hs
    exact h.create env name entry stackTop mode parent
  | start cpu =>
    obtain ⟨⟨r, s''⟩, hr, hs'⟩ := Exec.bind_eq_ok.mp hs
    cases hs'
    exact h.start hr
  | schedule cpu frame =>
    obtain ⟨⟨r, s''⟩, hr, hs'⟩ := Exec.bind_eq_ok.mp hs
    cases hs'
    exact h.schedule hr

/-- So does a call on descriptors. -/
theorem edits (h : Housed s) {target : Fin maxProcs → Process → Prop} (hs : Edits target s s') :
    Housed s' := by
  cases hs with
  | none => exact h
  | edit i p fds hslot hacts =>
    refine h.of_ids (h.placed.congr rfl (map_slots_setFds hslot fds fun q => rfl)) ?_
      (map_slots_setFds hslot fds fun q => rfl) rfl
    rintro c k r hk (hr : (s.table.setSlot i (some { p with fds })).slots k = some r)
    have hstate := map_slots_setFds hslot fds (f := Process.state) (fun q => rfl) k
    rw [hr, Option.map_some] at hstate
    obtain ⟨q, hq, hsame⟩ := Option.map_eq_some_iff.mp hstate.symm
    exact hsame ▸ h.running c k q hk hq

/-- Every event keeps the invariant. -/
theorem event (h : Housed s) {env : Env} {e : FdEvent} (hs : e.Step env s s') : Housed s' := by
  cases e with
  | op o => exact h.op hs
  | sysOpen cpu mem frame =>
    obtain ⟨⟨frame', s''⟩, hr, hs'⟩ := Exec.bind_eq_ok.mp hs
    cases hs'
    exact h.edits (sysOpen_cases hr).1
  | sysClose cpu frame =>
    obtain ⟨⟨frame', s''⟩, hr, hs'⟩ := Exec.bind_eq_ok.mp hs
    cases hs'
    exact h.edits (sysClose_cases hr).1
  | setFd pid fd desc =>
    cases hs
    exact h.edits (setFd_cases pid fd desc s)
  | setInitFd fd desc =>
    cases hs
    unfold Kernel.setInitFd
    split
    · exact ⟨⟨h.placed.nodup, h.placed.queued, h.placed.current, h.placed.parked⟩, h.running,
        h.used, h.pid, h.nextPid⟩
    · exact h

/-- The invariant holds at the end of every run. -/
theorem of_trace {env : Env} {ts : List (Transition Sched FdEvent)}
    (h : Trace Kernel.init (FdEvent.Step env) ts s) : Housed s :=
  h.inv init fun _ _ _ hs hstep => hs.event hstep

/-- The process that is current on a CPU runs there. -/
theorem runsOn (h : Housed s) {i : Fin maxProcs} {p : Process} (hi : s.current cpu = i.val)
    (hp : s.table.slots i = some p) : p.RunsOn cpu :=
  ⟨h.running cpu i p hi hp, (h.placed.of_current hi hp).1⟩

/-- Processes with the same pid are in the same slot. -/
theorem slot_inj (h : Housed s) {i j : Fin maxProcs} {p q : Process} (hp : s.table.slots i = some p)
    (hq : s.table.slots j = some q) (hid : p.id = q.id) : i = j := by
  have hi := h.pid i p hp
  have hj := h.pid j q hq
  exact Fin.ext (by omega)

end Housed

end Files

/-! ## Isolation -/

/-- An event that may change the table of the process in a slot: a system call on the CPU where the
process is running, or `set_fd` with its pid. -/
def FdEvent.MayChange (s : Sched) (i : Fin maxProcs) (p : Process) : FdEvent → Prop
  | sysOpen cpu _ _ => s.current cpu = i.val ∧ p.RunsOn cpu
  | sysClose cpu _ => s.current cpu = i.val ∧ p.RunsOn cpu
  | setFd pid _ _ => p.id = pid
  | _ => False

/-- The table that a child is to get: that of its parent, or `INIT_FDS` if there is none. -/
structure Sched.Inherits (s : Sched) (parent : Option ℕ) (fds : FdTable) : Prop where
  child : ∀ (j : Fin maxProcs) (q : Process), s.table.slots j = some q → parent = some q.id →
    fds = q.fds
  orphan : (∀ (j : Fin maxProcs) (q : Process), s.table.slots j = some q → parent ≠ some q.id) →
    fds = s.initFds

/-- What an event does to descriptor tables. -/
structure FdsIsolated (s : Sched) (e : FdEvent) (s' : Sched) : Prop where
  /-- A process stays in its slot, and only some events change its table. -/
  changes : ∀ (i : Fin maxProcs) (p : Process), s.table.slots i = some p → ∃ p',
    s'.table.slots i = some p' ∧ p'.id = p.id ∧ (p'.fds ≠ p.fds → e.MayChange s i p)
  /-- No two tables change at once. So what happens to a child's table is nothing to its parent's. -/
  alone : ∀ (i j : Fin maxProcs) (p q p' q' : Process), i ≠ j → s.table.slots i = some p →
    s.table.slots j = some q → s'.table.slots i = some p' → s'.table.slots j = some q' →
    p'.fds ≠ p.fds → q'.fds = q.fds
  /-- A new process has the table of its parent. -/
  created : ∀ (i : Fin maxProcs) (p' : Process), s.table.slots i = none →
    s'.table.slots i = some p' → ∃ name entry stackTop mode parent,
      e = .op (.create name entry stackTop mode parent) ∧ s.Inherits parent p'.fds

/-- An `open` or a `close` that fails leaves the state as it is. -/
structure FdsKept (s : Sched) : Prop where
  sysOpen : ∀ cpu mem frame frame' s', sysOpen cpu mem frame s = .ok (frame', s') →
    reg frame' 0 = failure → s' = s
  sysClose : ∀ cpu frame frame' s', sysClose cpu frame s = .ok (frame', s') →
    reg frame' 0 = failure → s' = s

section Isolation

variable {s s' : Sched} {e : FdEvent}

/-- An event after which every process has the files from before is isolated. -/
theorem FdsIsolated.of_files (h : ∀ j, s'.table.files j = s.table.files j) : FdsIsolated s e s' := by
  have hto : ∀ (j : Fin maxProcs) (q : Process), s.table.slots j = some q → ∃ q',
      s'.table.slots j = some q' ∧ q'.id = q.id ∧ q'.fds = q.fds := by
    intro j q hq
    have hj := h j
    rw [files_of_slot hq, ProcessTable.files, Option.map_eq_some_iff] at hj
    obtain ⟨q', hq', hqq⟩ := hj
    exact ⟨q', hq', (Prod.mk.inj hqq).1, (Prod.mk.inj hqq).2⟩
  refine ⟨fun i p hp => ?_, fun i j p q p' q' _ _ hq _ hq' _ => ?_, fun i p' hp hp' => ?_⟩
  · obtain ⟨p', hp', hid, hfds⟩ := hto i p hp
    exact ⟨p', hp', hid, fun hne => absurd hfds hne⟩
  · obtain ⟨q'', hq'', -, hfds⟩ := hto j q hq
    rw [hq'] at hq''
    cases hq''
    exact hfds
  · have hi := h i
    rw [files_of_slot hp', ProcessTable.files, hp] at hi
    cases hi

/-- An edit of a process that the event may change is isolated. -/
theorem FdsIsolated.of_edits {target : Fin maxProcs → Process → Prop} (h : Edits target s s')
    (hchange : ∀ i p, s.table.slots i = some p → target i p → e.MayChange s i p) :
    FdsIsolated s e s' := by
  cases h with
  | none => exact .of_files fun _ => rfl
  | edit i p fds hp hacts =>
    have hself : (s.table.setSlot i (some { p with fds })).slots i = some { p with fds } :=
      setSlot_slots_self
    have hother : ∀ j, j ≠ i → (s.table.setSlot i (some { p with fds })).slots j = s.table.slots j :=
      fun j hj => setSlot_slots_of_ne hj
    refine ⟨fun j q hq => ?_, fun j k q r q' r' hjk hq hr hq' hr' hne => ?_, fun j q hq hq' => ?_⟩
    · by_cases hji : j = i
      · subst hji
        rw [hp] at hq
        cases hq
        exact ⟨_, hself, rfl, fun _ => hchange _ _ hp hacts⟩
      · exact ⟨q, (hother j hji).trans hq, rfl, fun hne => absurd rfl hne⟩
    · -- The table that changes is that of slot `i`, so the other one is not.
      have hji : j = i := by
        by_contra hji
        have hsame := (hother j hji).symm.trans hq'
        rw [hq] at hsame
        cases hsame
        exact hne rfl
      have hki : k ≠ i := fun hki => hjk (hji.trans hki.symm)
      have hsame := (hother k hki).symm.trans hr'
      rw [hr] at hsame
      cases hsame
      rfl
    · change (s.table.setSlot i _).slots j = _ at hq'
      have hji : j ≠ i := by
        rintro rfl
        rw [hp] at hq
        cases hq
      rw [hother j hji, hq] at hq'
      cases hq'

/-- A child inherits the table of the process with the parent's pid. -/
theorem Housed.inherits (h : Housed s) (parent : Option ℕ) :
    s.Inherits parent (inheritedFds s parent) := by
  unfold inheritedFds
  cases parent with
  | none => exact ⟨fun _ _ _ hparent => (by cases hparent), fun _ => rfl⟩
  | some pid =>
    dsimp only
    cases hfind : (List.finRange maxProcs).findSome? fun i =>
        (s.table.slots i).filter (·.id = pid) with
    | none =>
      refine ⟨fun j q hq hparent => ?_, fun _ => rfl⟩
      have hnone := List.findSome?_eq_none_iff.mp hfind j (List.mem_finRange j)
      cases hparent
      simp [hq] at hnone
    | some p =>
      obtain ⟨i, -, hi⟩ := List.exists_of_findSome?_eq_some hfind
      obtain ⟨hp, hid⟩ := Option.filter_eq_some_iff.mp hi
      have hid' : p.id = pid := of_decide_eq_true hid
      refine ⟨fun j q hq hparent => ?_, fun horphan => absurd ?_ (horphan i p hp)⟩
      · cases hparent
        -- pids are apart, so the first process with the pid is the only one
        have hij := h.slot_inj hp hq hid'
        subst hij
        rw [hp] at hq
        cases hq
        rfl
      · rw [hid']

/-- A creation is isolated. -/
theorem FdsIsolated.create (h : Housed s) (env : Env) (name : String) (entry stackTop : ℕ)
    (mode : ProcessMode) (parent : Option ℕ) :
    FdsIsolated s (.op (.create name entry stackTop mode parent))
      (createWithMode env name entry stackTop mode parent s).2 := by
  cases hfree : freeSlot s.table with
  | none =>
    rw [createWithMode_none env name entry stackTop mode parent hfree]
    exact .of_files fun _ => rfl
  | some i =>
    have hnone := slots_of_freeSlot hfree
    obtain ⟨p, t, he, -, -, hslot, -, -, -, hfds, -, -, hother⟩ := createWithMode_some env name entry
      stackTop mode parent hfree (h.placed.length_lt (h.placed.free hnone).1)
    rw [he]
    have hold : ∀ {j q}, s.table.slots j = some q → t.slots j = some q := by
      intro j q hq
      rw [hother j (by rintro rfl; rw [hnone] at hq; cases hq), hq]
    refine ⟨fun j q hq => ⟨q, hold hq, rfl, fun hne => absurd rfl hne⟩,
      fun j k q r q' r' _ _ hr _ hr' _ => ?_, fun j q hq hq' => ?_⟩
    · have hsame := (hold hr).symm.trans hr'
      cases hsame
      rfl
    · refine ⟨name, entry, stackTop, mode, parent, rfl, ?_⟩
      -- a slot that was empty and is not can only be the child's
      have hji : j = i := by
        by_contra hji
        change t.slots j = some q at hq'
        rw [hother j hji, hq] at hq'
        cases hq'
      have hsame : t.slots j = some q := hq'
      rw [hji, hslot] at hsame
      cases hsame
      rw [hfds]
      exact h.inherits parent

/-- Every event is isolated. -/
theorem Housed.isolated (h : Housed s) {env : Env} (hs : e.Step env s s') : FdsIsolated s e s' := by
  cases e with
  | op o =>
    cases o with
    | create name entry stackTop mode parent =>
      cases hs
      exact .create h env name entry stackTop mode parent
    | start cpu =>
      obtain ⟨⟨r, s''⟩, hr, hs'⟩ := Exec.bind_eq_ok.mp hs
      cases hs'
      exact .of_files (h.placed.starts hr).files
    | schedule cpu frame =>
      obtain ⟨⟨r, s''⟩, hr, hs'⟩ := Exec.bind_eq_ok.mp hs
      cases hs'
      exact .of_files (h.placed.schedules hr).files
  | sysOpen cpu mem frame =>
    obtain ⟨⟨frame', s''⟩, hr, hs'⟩ := Exec.bind_eq_ok.mp hs
    cases hs'
    exact .of_edits (sysOpen_cases hr).1 fun i p hp hi => ⟨hi, h.runsOn hi hp⟩
  | sysClose cpu frame =>
    obtain ⟨⟨frame', s''⟩, hr, hs'⟩ := Exec.bind_eq_ok.mp hs
    cases hs'
    exact .of_edits (sysClose_cases hr).1 fun i p hp hi => ⟨hi, h.runsOn hi hp⟩
  | setFd pid fd desc =>
    cases hs
    exact .of_edits (setFd_cases pid fd desc s) fun _ _ _ hid => hid
  | setInitFd fd desc =>
    cases hs
    refine .of_files fun j => ?_
    unfold Kernel.setInitFd
    split
    · rfl
    · rfl

/-- In every run, the descriptor table of a process changes only through `open` and `close` while it
is running on the CPU that takes the call, or through `set_fd` with its pid; a child begins with its
parent's table; and a call that fails changes nothing. -/
theorem fds_isolated (env : Env) (ts : List (Transition Sched FdEvent)) (s : Sched)
    (h : Trace init (FdEvent.Step env) ts s) :
    (∀ e s', FdEvent.Step env s e s' → FdsIsolated s e s') ∧ FdsKept s := by
  have hhoused := Housed.of_trace h
  refine ⟨fun e s' hs => hhoused.isolated hs, ⟨?_, ?_⟩⟩
  · exact fun cpu mem frame frame' s' hs hfail => (sysOpen_cases hs).2 hfail
  · exact fun cpu frame frame' s' hs hfail => (sysClose_cases hs).2 hfail

/-- The state after the creation of the shell. -/
def shellCreated : Sched := (createWithMode sampleEnv "shell" 0x80000 0 .user none init).2

/-- The creation is a run. -/
theorem trace_shellCreated : Trace init (FdEvent.Step sampleEnv)
    [⟨init, .op (.create "shell" 0x80000 0 .user none), shellCreated⟩] shellCreated :=
  .cons .nil rfl

/-- `fds_isolated` for a `set_fd` with the pid of the shell. -/
theorem fds_isolated_shell : FdsIsolated shellCreated (.setFd 1 1 (some ⟨.devFb0, ⟨false, true, false⟩⟩))
    (setFd 1 1 (some ⟨.devFb0, ⟨false, true, false⟩⟩) shellCreated).2 ∧ FdsKept shellCreated :=
  have h := fds_isolated sampleEnv _ _ trace_shellCreated
  ⟨h.1 _ _ rfl, h.2⟩

end Isolation

end Ralix.Kernel
