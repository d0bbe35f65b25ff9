import Mathlib.Algebra.BigOperators.Group.Finset.Piecewise
import Mathlib.Algebra.Group.Action.Defs
import Mathlib.Algebra.Order.BigOperators.Group.Finset
import Ralix.Kernel.BringUp

/-!
# Every CPU is given a process

No CPU panics on its way, each finds what CPU 0 prepared for it, and none sleeps on in the wait loop:
`Smp.weight` bounds the steps that are left, so that `brought_up` and `comes_up` hold for the CPUs in any
order of their steps. From then on one of the five processes waits, for the next interrupt (`one_waits`).
-/

namespace Ralix.Kernel

open Lib ProcessTable

/-! ## The steps that are left -/

/-- How many turns of the wait loop are left if no event comes. -/
def Wait.weight : Wait → ℕ
  | load => 2
  | wfe => 1
  | asleep => 0

/-- A bound of the steps that a CPU has left. An event is worth another round of the wait loop. -/
def BootCpu.weight (b : BootCpu) : ℕ :=
  3 * b.todo.length + b.wait.weight + if b.event then 3 else 0

namespace Smp

/-- A bound of the steps that all CPUs have left. The event that is to come is worth one for each. -/
def weight (m : Smp) : ℕ :=
  ∑ c, (m.cpu c).weight + if .sendEvent ∈ (m.cpu 0).todo then 3 * maxCpus else 0

namespace Inv

variable {image : Image} {m m' : Smp} {c : Cpu} {x : BootStep}

/-- A turn in the wait loop leaves it, or changes only where the core is in it. -/
theorem turn_cases (h : Inv image m) (hc : c ≠ 0) (hturn : m.waitTurn c = some m') :
    (m.released c ∧ (m.cpu c).wait = .load ∧ m' = m.advance c) ∨
      ∃ w e, m' = m.setCpu c { m.cpu c with wait := w, event := e } ∧
        (.sendEvent ∉ (m.cpu 0).todo → w = .load ∨ e) ∧
        w.weight + (if e then 3 else 0) < (m.cpu c).wait.weight + if (m.cpu c).event then 3 else 0 := by
  cases hwait : (m.cpu c).wait with
  | load =>
    simp only [waitTurn, hwait] at hturn
    split at hturn
    · rename_i hreleased
      cases hturn
      exact .inl ⟨hreleased, rfl, rfl⟩
    · rename_i hreleased
      cases hturn
      refine .inr ⟨.wfe, (m.cpu c).event, rfl, fun hsend => ?_, by simp [Wait.weight]⟩
      -- the event is sent after the entry is stored
      have hrelease := (kernelMain_order (h.suffix 0)).event hsend c hc
      exact absurd ((h.released c hc).mpr hrelease) hreleased
  | wfe =>
    simp only [waitTurn, hwait] at hturn
    split at hturn
    · cases hturn
      exact .inr ⟨.load, false, rfl, fun _ => .inl rfl, by simp [Wait.weight, *]⟩
    · cases hturn
      refine .inr ⟨.asleep, (m.cpu c).event, rfl, fun hsend => .inr ?_, by simp [Wait.weight]⟩
      exact (h.event c hsend).resolve_left (by rw [hwait]; decide)
  | asleep =>
    simp only [waitTurn, hwait] at hturn
    split at hturn
    · cases hturn
      exact .inr ⟨.load, false, rfl, fun _ => .inl rfl, by simp [Wait.weight, *]⟩
    · cases hturn

/-- A step of a list is one, or a turn in the wait loop that stays there. -/
theorem go_cases (h : Inv image m) (hstep : m.Step image (.go c) m') :
    (∃ x, Effect image c x m m' ∧ (m'.cpu c).todo.length < (m.cpu c).todo.length) ∨
      ∃ w e, m' = m.setCpu c { m.cpu c with wait := w, event := e } ∧
        (.sendEvent ∉ (m.cpu 0).todo → w = .load ∨ e) ∧
        w.weight + (if e then 3 else 0) < (m.cpu c).wait.weight + if (m.cpu c).event then 3 else 0 := by
  simp only [Step, Smp.step, h.calm c, Bool.false_eq_true, if_false, Option.bind_eq_some_iff]
    at hstep
  obtain ⟨x, hhead, hexec⟩ := hstep
  obtain ⟨rest, htodo⟩ : ∃ rest, (m.cpu c).todo = x :: rest := List.head?_eq_some_iff.mp hhead
  have hshorter : ∀ {y}, Effect image c y m m' → (m'.cpu c).todo.length < (m.cpu c).todo.length := by
    intro y he
    rw [he.rest.tail, htodo]
    exact Nat.lt_succ_self _
  by_cases hx : x = .await
  · subst hx
    have hc : c ≠ 0 := by
      rintro rfl
      have hmem : BootStep.await ∈ mainOf 0 := (h.suffix 0).subset (List.mem_of_mem_head? hhead)
      exact absurd hmem (by decide)
    rcases h.turn_cases hc hexec with ⟨hreleased, hload, -⟩ | hwaits
    · have he := h.effect_go htodo hexec fun _ => ⟨hreleased, hload⟩
      exact .inl ⟨_, he, hshorter he⟩
    · exact .inr hwaits
  · have he := h.effect_go htodo hexec fun hawait => absurd hawait hx
    exact .inl ⟨_, he, hshorter he⟩

/-- Every step keeps the invariant. -/
theorem step (h : Inv image m) {e : SmpEvent} (hstep : m.Step image e m') : Inv image m' := by
  cases e with
  | go c =>
    rcases h.go_cases hstep with ⟨x, he, -⟩ | ⟨w, e, rfl, hw, -⟩
    · exact h.next he
    · exact h.waits w e hw
  | tick c frame =>
    simp only [Step, Smp.step, h.calm c, Bool.false_eq_true, not_false_eq_true, and_true] at hstep
    split at hstep
    · rename_i hirq
      cases hstep
      exact h.next (h.effect_tick hirq frame)
    · cases hstep
  | wake c =>
    cases hstep
    exact h.waits (m.cpu c).wait true fun _ => .inr rfl

/-- It holds in every state of every run. -/
theorem of_trace {ts : List (Transition Smp SmpEvent)}
    (h : Trace (Smp.boot image) (Smp.Step image) ts m) : Inv image m :=
  h.inv (boot image) fun _ _ _ hi hs => hi.step hs

end Inv

section Weight

variable {image : Image} {m m' : Smp} {c : Cpu} {x : BootStep}

/-- A CPU's part of the bound. -/
theorem weight_setCpu (m : Smp) (c : Cpu) (b : BootCpu) (htodo : b.todo = (m.cpu c).todo) :
    (m.setCpu c b).weight + (m.cpu c).weight = m.weight + b.weight := by
  have hzero : ((m.setCpu c b).cpu 0).todo = (m.cpu 0).todo := by
    by_cases hc : (0 : Cpu) = c
    · subst hc
      simpa [setCpu] using htodo
    · simp [setCpu, hc]
  have hsum : ∑ d, ((m.setCpu c b).cpu d).weight + (m.cpu c).weight =
      ∑ d, (m.cpu d).weight + b.weight := by
    have hrest : ∑ d ∈ Finset.univ.erase c, ((m.setCpu c b).cpu d).weight =
        ∑ d ∈ Finset.univ.erase c, (m.cpu d).weight := by
      refine Finset.sum_congr rfl fun d hd => ?_
      simp [setCpu, Finset.ne_of_mem_erase hd]
    have h₁ := Finset.add_sum_erase Finset.univ (fun d => ((m.setCpu c b).cpu d).weight)
      (Finset.mem_univ c)
    have h₂ := Finset.add_sum_erase Finset.univ (fun d => (m.cpu d).weight) (Finset.mem_univ c)
    have hself : ((m.setCpu c b).cpu c).weight = b.weight := by simp [setCpu]
    omega
  unfold weight
  rw [hzero]
  omega

/-- A step of a list takes at least three from the bound. -/
theorem Effect.weight_le (he : Effect image c x m m') :
    m'.weight + 3 * ((m.cpu c).todo.length - (m'.cpu c).todo.length) ≤ m.weight := by
  have hpoint : ∀ d, (m'.cpu d).weight +
      (if d = c then 3 * ((m.cpu c).todo.length - (m'.cpu c).todo.length) else 0) ≤
        (m.cpu d).weight + if x = .sendEvent then 3 else 0 := by
    intro d
    have hevent : (if (m'.cpu d).event then 3 else 0) ≤
        (if (m.cpu d).event then 3 else 0) + if x = .sendEvent then 3 else 0 := by
      rw [he.event d]
      cases (m.cpu d).event <;> by_cases hx : x = .sendEvent <;> simp [hx]
    unfold BootCpu.weight
    by_cases hd : d = c
    · subst hd
      have hlen : (m'.cpu d).todo.length ≤ (m.cpu d).todo.length := by
        rw [he.rest.tail, List.length_tail]
        exact Nat.sub_le ..
      rw [if_pos rfl, he.wait]
      omega
    · have hother : (m'.cpu d).todo = (m.cpu d).todo ∧ (m'.cpu d).wait = (m.cpu d).wait := by
        rw [he.other d hd]
        exact ⟨rfl, rfl⟩
      rw [if_neg hd, hother.1, hother.2]
      omega
  have hsum := Finset.sum_le_sum fun d (_ : d ∈ Finset.univ) => hpoint d
  rw [Finset.sum_add_distrib, Finset.sum_add_distrib, Finset.sum_ite_eq' Finset.univ c,
    if_pos (Finset.mem_univ c), Finset.sum_const, Finset.card_univ, Fintype.card_fin,
    smul_eq_mul] at hsum
  have hleft := he.left_zero (y := .sendEvent) (by decide) (by decide)
  unfold weight
  by_cases hx : x = .sendEvent
  · have hmem : BootStep.sendEvent ∈ (m.cpu 0).todo := by
      obtain rfl : c = 0 := eq_zero_of_mem he.rest.mem (by rw [hx]; decide)
      rcases he.rest.head with hstart | hhead
      · exact absurd (hx.symm.trans hstart) (by decide)
      · exact hx ▸ List.mem_of_mem_head? hhead
    rw [if_neg (by rw [hleft]; simp [hx]), if_pos hmem]
    rw [if_pos hx] at hsum
    omega
  · simp only [hleft, Ne.symm hx, ne_eq, not_false_eq_true, and_true]
    rw [if_neg hx] at hsum
    omega

/-- A step of a list takes from the bound, an interrupt adds nothing to it, and an event at most
three. -/
theorem Inv.weight_le (h : Inv image m) {e : SmpEvent} (hstep : m.Step image e m') :
    m'.weight + (if e matches .go _ then 1 else 0) ≤
      m.weight + if e matches .wake _ then 3 else 0 := by
  cases e with
  | go c =>
    show m'.weight + 1 ≤ m.weight + 0
    rcases h.go_cases hstep with ⟨x, he, hlen⟩ | ⟨w, ev, rfl, -, hw⟩
    · have hle := he.weight_le
      omega
    · have hset := m.weight_setCpu c { m.cpu c with wait := w, event := ev } rfl
      dsimp only [BootCpu.weight] at hset ⊢
      omega
  | tick c frame =>
    show m'.weight + 0 ≤ m.weight + 0
    simp only [Step, Smp.step, h.calm c, Bool.false_eq_true, not_false_eq_true, and_true] at hstep
    split at hstep
    · rename_i hirq
      cases hstep
      have hle := (h.effect_tick hirq frame).weight_le
      omega
    · cases hstep
  | wake c =>
    show m'.weight + 0 ≤ m.weight + 3
    cases hstep
    have hset := m.weight_setCpu c { m.cpu c with event := true } rfl
    dsimp only [BootCpu.weight] at hset ⊢
    rw [if_pos rfl] at hset
    omega

/-- A core is stuck in its wait loop only while it sleeps. -/
theorem exists_turn (m : Smp) (c : Cpu) (h : (m.cpu c).wait = .load ∨ (m.cpu c).event) :
    ∃ m', m.waitTurn c = some m' := by
  cases hwait : (m.cpu c).wait with
  | load =>
    simp only [waitTurn, hwait]
    split <;> exact ⟨_, rfl⟩
  | wfe =>
    simp only [waitTurn, hwait]
    split <;> exact ⟨_, rfl⟩
  | asleep =>
    have hevent := h.resolve_left (by rw [hwait]; decide)
    simp only [waitTurn, hwait, hevent, if_true]
    exact ⟨_, rfl⟩

/-- While some CPU has no process, some CPU can go on. -/
theorem Inv.can_go (h : Inv image m) (hidle : m.sched.current c = invalidIdx) :
    ∃ d m', m.Step image (.go d) m' := by
  have hgo : ∀ d x, (m.cpu d).todo.head? = some x → (∃ m', m.exec image d x = some m') →
      ∃ d m', m.Step image (.go d) m' := by
    rintro d x hhead ⟨m', hexec⟩
    refine ⟨d, m', ?_⟩
    simp only [Step, Smp.step, h.calm d, Bool.false_eq_true, if_false, hhead]
    exact hexec
  have hexec : ∀ d x, x ≠ .await → ∃ m', m.exec image d x = some m' := by
    intro d x hx
    cases x <;> first | exact ⟨_, rfl⟩ | exact absurd rfl hx
  match hzero : (m.cpu 0).todo.head? with
  | some x =>
    -- CPU 0 waits for nothing
    have hx : x ≠ .await := by
      rintro rfl
      have hmem : BootStep.await ∈ mainOf 0 := (h.suffix 0).subset (List.mem_of_mem_head? hzero)
      exact absurd hmem (by decide)
    exact hgo 0 x hzero (hexec 0 x hx)
  | none =>
    have hsend : BootStep.sendEvent ∉ (m.cpu 0).todo := by
      rw [List.head?_eq_none_iff.mp hzero]
      exact List.not_mem_nil
    have hstart := (h.current c).mp hidle
    match hhead : (m.cpu c).todo.head? with
    | none => simp [List.head?_eq_none_iff.mp hhead] at hstart
    | some x =>
      by_cases hx : x = .await
      · subst hx
        refine hgo c .await hhead ?_
        -- the event was sent, so the core is not asleep
        exact m.exists_turn c (h.event c hsend)
      · exact hgo c x hhead (hexec c x hx)

end Weight

end Smp

/-! ## Main results -/

/-- What holds of the CPUs in any state on their way. -/
structure Smp.Sound (image : Image) (m : Smp) : Prop where
  /-- None stops. -/
  calm : ∀ c, (m.cpu c).panicked = false
  /-- A core that has left its wait loop finds the page tables and the processes. -/
  released : ∀ c, c ≠ 0 → .await ∉ (m.cpu c).todo →
    m.kernelRoot = image.kernelRootPa ∧ m.userRoot = image.userRootPa ∧ m.sched.processes.card = 5
  /-- Interrupts are unmasked, and a process is put on a CPU, only on the kernel's page tables. -/
  tables : ∀ c, (m.cpu c).irq ∨ m.sched.current c ≠ invalidIdx →
    (m.cpu c).ttbr1 = image.kernelRootPa ∧ (m.cpu c).ttbr0 = image.userRootPa
  /-- A process has the user's page tables, and the keyboard and the screen open. -/
  equipped : ∀ i p, m.sched.table.slots i = some p → p.Equipped image
  /-- Every process is on one CPU, or waits. -/
  consistent : m.sched.Consistent

/-- In any order of the steps of the CPUs, with interrupts on those that have unmasked them, none
stops, and what the others need is there when they are let go. -/
theorem brought_up (image : Image) (ts : List (Transition Smp SmpEvent)) (m : Smp)
    (h : Trace (Smp.boot image) (Smp.Step image) ts m) : m.Sound image := by
  have hi := Smp.Inv.of_trace h
  have hprocesses : m.sched.table.nextPid = 6 → m.sched.processes.card = 5 := fun hpid => by
    have hcard := hi.inv.card_processes
    omega
  refine ⟨hi.calm, fun c hc hawait => ?_, fun c hc => ?_, hi.slots, hi.inv.consistent⟩
  · obtain ⟨-, hpid, hroots⟩ := hi.passed (fun hzero => absurd hzero hc) fun _ => hawait
    exact ⟨hroots.1, hroots.2, hprocesses hpid⟩
  · have hunmask : BootStep.initPerCpu ∉ (m.cpu c).todo := by
      rcases hc with hirq | hcur
      · exact hi.irq c hirq
      · rw [(mainOf_order (hi.suffix c)).start fun hmem => hcur ((hi.current c).mpr hmem)]
        exact List.not_mem_nil
    have htodo : ∀ x, x ≠ .startOnCpu → x ∉ (m.cpu c).todo := fun x hx hmem => by
      rcases (mainOf_order (hi.suffix c)).unmask hunmask with htodo | htodo <;>
        simp [htodo, hx] at hmem
    exact ⟨hi.ttbr1 c (htodo _ (by decide)) (htodo _ (by decide)),
      hi.ttbr0 c (htodo _ (by decide)) (htodo _ (by decide))⟩

/-- An image whose page tables lie at 512 KiB. -/
def sampleImage : Image := ⟨sampleEnv, 0x80000, 0x81000, 0x90000, 0x91000⟩

/-- CPU 1 finds no entry and sleeps, CPU 0 does all of its list, and then each other CPU does. -/
def fourUp : List SmpEvent :=
  [.go 1, .go 1] ++ List.replicate 16 (.go 0) ++ List.replicate 6 (.go 1) ++
    List.replicate 5 (.go 2) ++ List.replicate 5 (.go 3)

/-- A step, as an action that fails where the CPU cannot take it. -/
def Smp.act (image : Image) (e : SmpEvent) (m : Smp) : Exec Smp :=
  match m.step image e with
  | some m' => .ok m'
  | none => .error .expect

/-- After `fourUp`, every CPU has a process. -/
theorem replay_fourUp :
    (replay (Smp.act sampleImage) fourUp [] (Smp.boot sampleImage) >>= fun x =>
      return (x.2.sched.table.queue, List.ofFn x.2.sched.current)) = .ok ([4], [0, 1, 2, 3]) := by
  decide +kernel

/-- `fourUp` is a run. -/
theorem trace_fourUp : ∃ ts m, Trace (Smp.boot sampleImage) (Smp.Step sampleImage) ts m ∧
    m.sched.table.queue = [4] ∧ m.sched.current = Fin.val := by
  obtain ⟨⟨ts, m⟩, hrun, hfacts⟩ := Exec.bind_eq_ok.mp replay_fourUp
  simp only [Exec.pure_eq, Except.ok.injEq, Prod.mk.injEq] at hfacts
  have hcur : List.ofFn m.sched.current = List.ofFn (Fin.val : Cpu → ℕ) := hfacts.2
  have htrace : Trace (Smp.boot sampleImage) (fun s a s' => Smp.act sampleImage a s = .ok s') ts m :=
    Trace.of_replay .nil hrun
  refine ⟨ts, m, htrace.imp fun m₁ e m₂ he => ?_, hfacts.1, List.ofFn_injective hcur⟩
  unfold Smp.act at he
  split at he
  · rename_i hstep
    cases he
    exact hstep
  · cases he

/-- `brought_up` after `fourUp`. -/
theorem brought_up_fourUp : ∃ ts m, Trace (Smp.boot sampleImage) (Smp.Step sampleImage) ts m ∧
    m.sched.current = Fin.val ∧ m.Sound sampleImage := by
  obtain ⟨ts, m, h, -, hcur⟩ := trace_fourUp
  exact ⟨ts, m, h, hcur, brought_up sampleImage ts m h⟩

/-- From any state on the way, steps of the lists alone give every CPU a process. -/
theorem Smp.Inv.exists_up {image : Image} {m : Smp} (h : Smp.Inv image m) :
    ∃ us m', Trace m (Smp.Step image) us m' ∧ ∀ c, m'.sched.current c ≠ invalidIdx := by
  induction hn : m.weight using Nat.strong_induction_on generalizing m with
  | _ n ih =>
    by_cases hup : ∀ c, m.sched.current c ≠ invalidIdx
    · exact ⟨[], m, .nil, hup⟩
    · simp only [ne_eq, not_forall, not_not] at hup
      obtain ⟨c, hc⟩ := hup
      obtain ⟨d, m₁, hstep⟩ := h.can_go hc
      have hlt : m₁.weight + 1 ≤ m.weight + 0 := h.weight_le hstep
      obtain ⟨us, m', htrace, hall⟩ := ih m₁.weight (by omega) (h.step hstep) rfl
      exact ⟨us ++ [⟨m, .go d, m₁⟩], m', (Trace.nil.cons hstep).append htrace, hall⟩

/-- Once every CPU has a process, one process waits. The next interrupt, on any CPU, puts it there, and
the one that was there waits. -/
theorem one_waits (image : Image) (ts : List (Transition Smp SmpEvent)) (m : Smp)
    (h : Trace (Smp.boot image) (Smp.Step image) ts m) (hup : ∀ c, m.sched.current c ≠ invalidIdx) :
    ∃ x, m.sched.table.queue = [x] ∧ ∀ (c : Cpu) (frame : ℕ) (m' : Smp),
      m.Step image (.tick c frame) m' →
        m'.sched.current = Function.update m.sched.current c x ∧
          m'.sched.table.queue = [m.sched.current c] := by
  have hi := Smp.Inv.of_trace h
  have htodo : (m.cpu 0).todo = [] := (mainOf_order (hi.suffix 0)).start fun hmem =>
    hup 0 ((hi.current 0).mpr hmem)
  have hlen : m.sched.table.queue.length = 1 := by
    have hpid := hi.nextPid
    rw [htodo] at hpid
    have hcard := hi.inv.card_processes
    have heq := hi.inv.card_eq
    have hstarted : m.sched.started = Finset.univ := Finset.filter_true_of_mem fun c _ => hup c
    rw [hstarted, Finset.card_univ, Fintype.card_fin] at heq
    simp only [List.countP_nil] at hpid
    unfold maxCpus at heq
    omega
  obtain ⟨x, hx⟩ := List.length_eq_one_iff.mp hlen
  refine ⟨x, hx, fun c frame m' hstep => ?_⟩
  simp only [Smp.Step, Smp.step, hi.calm c, Bool.false_eq_true, not_false_eq_true, and_true]
    at hstep
  split at hstep
  · cases hstep
    obtain ⟨r, s, hs, hruns, hput⟩ := hi.inv.runs_schedule c frame
    obtain ⟨hcur, hqueue⟩ := hput (by simp [hx])
    rw [hx] at hcur hqueue
    have hsched : (m.takeTick c frame).sched = s := by
      simp only [Smp.takeTick, hs, Smp.orPanic]
      split <;> rfl
    rw [hsched]
    refine ⟨funext fun d => ?_, ?_⟩
    · by_cases hd : d = c
      · subst hd
        simpa using hcur
      · simpa [hd] using hruns.other d hd
    · simpa [leaving, hup c] using hqueue
  · cases hstep

/-- `one_waits` after `fourUp`. -/
theorem one_waits_fourUp : ∃ ts m, Trace (Smp.boot sampleImage) (Smp.Step sampleImage) ts m ∧
    m.sched.table.queue = [4] ∧ ∀ frame m', m.Step sampleImage (.tick 2 frame) m' →
      m'.sched.table.queue = [2] := by
  obtain ⟨ts, m, h, hqueue, hcur⟩ := trace_fourUp
  obtain ⟨x, -, hall⟩ := one_waits sampleImage ts m h fun c => by
    rw [hcur]
    revert c
    decide
  refine ⟨ts, m, h, hqueue, fun frame m' hstep => ?_⟩
  rw [(hall 2 frame m' hstep).2, hcur]
  rfl

end Ralix.Kernel
