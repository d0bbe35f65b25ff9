import Ralix.Arch.Exception
import Ralix.Kernel.Process
import Ralix.Lib.Trace

/-!
# Interrupted contexts

The CPUs and their memory while contexts are interrupted and resumed. A context runs as it likes. An
interrupt saves its frame and calls `irq_handler`, which does what the procedure call standard
allows and returns a frame: the one it was called with, or that of another context, which the CPU is
then resumed from. Neither contexts nor the handler write to a frame that is saved. Beside the
machine, `saved` keeps for each frame the registers of the interrupted context.

`boot.S` enables the vector unit because the compiler may use its registers, and the frame has no
place for them. So a context gets back its general registers whatever ran in between, and of the
vector unit it finds what the code that ran in between left there (`restored_iff`).
-/

namespace Ralix.Arch

open Lib Lib.AArch64 Kernel

/-- Where a CPU is on its way through `irq_vector`. -/
inductive Phase where
  /-- In a context. -/
  | running
  /-- In `irq_handler`. -/
  | handler
  /-- Past `bl irq_handler`. -/
  | returned
deriving DecidableEq

/-- An interrupted context, and the CPU that it was interrupted on. -/
structure Saved where
  core : Core
  cpu : Cpu

/-- The CPUs and their memory. `saved` is not in the program: it recalls what each frame is of. -/
structure Machine where
  core : Cpu → Core
  mem : Mem
  phase : Cpu → Phase
  saved : BitVec 64 → Option Saved

/-- A step of a CPU. -/
inductive Event where
  /-- The context runs on. -/
  | run (c : Cpu) (core : Core) (mem : Mem)
  /-- An interrupt, up to the call of `irq_handler`. -/
  | irq (c : Cpu)
  /-- `irq_handler`, from call to return. -/
  | handler (c : Cpu) (core : Core) (mem : Mem)
  /-- The rest of `irq_vector`, up to `eret`. -/
  | resume (c : Cpu)

namespace Machine

/-- The machine before any interrupt. -/
def boot (core : Cpu → Core) (mem : Mem) : Machine where
  core := core
  mem := mem
  phase _ := .running
  saved _ := none

/-- Memory with the saved frames as they are. -/
def Keeps (m : Machine) (mem : Mem) : Prop :=
  ∀ f s, m.saved f = some s → ∀ a ∈ frameWords f, mem a = m.mem a

/-- A place for a frame, apart from those that are saved: contexts have stacks of their own. -/
def Room (m : Machine) (f : BitVec 64) : Prop :=
  ∀ f' s, m.saved f' = some s → ∀ a ∈ frameWords f', a ∉ frameWords f

/-- The machine with the registers and memory of a CPU's code. -/
def set (m : Machine) (c : Cpu) (core : Core) (mem : Mem) (p : Phase) : Machine :=
  { m with core := Function.update m.core c core, mem := mem, phase := Function.update m.phase c p }

/-- An interrupt of a CPU. -/
def irq (m : Machine) (c : Cpu) : Machine :=
  let s := runs irqVectorSave ((m.core c).takeIrq, m.mem)
  { m.set c s.1 s.2 .handler with
    saved := Function.update m.saved ((m.core c).sp - tfSize) (some ⟨m.core c, c⟩) }

/-- A CPU is resumed from the frame in `x0`. -/
def resume (m : Machine) (c : Cpu) : Machine :=
  let s := runs irqVectorRestore (m.core c, m.mem)
  { m.set c s.1 s.2 .running with saved := Function.update m.saved (framePtr (m.core c)) none }

/-- One step. -/
inductive Step : Machine → Event → Machine → Prop
  | run {m : Machine} {c : Cpu} {core : Core} {mem : Mem} :
      m.phase c = .running → m.Keeps mem → Step m (.run c core mem) (m.set c core mem .running)
  | irq {m : Machine} {c : Cpu} :
      m.phase c = .running → m.Room ((m.core c).sp - tfSize) → Step m (.irq c) (m.irq c)
  | handler {m : Machine} {c : Cpu} {core : Core} {mem : Mem} :
      m.phase c = .handler → Aapcs64 (m.core c) core → m.Keeps mem →
        Step m (.handler c core mem) (m.set c core mem .returned)
  | resume {m : Machine} {c : Cpu} :
      m.phase c = .returned → Step m (.resume c) (m.resume c)

end Machine

open Machine

/-- A core that has the context of another, but for its vector registers. `SPSR_EL1` and the
`PSTATE` that `eret` takes from it are the `PSTATE` of the context. -/
structure Restored (r c : Core) : Prop where
  x : c.x = r.x
  sp : c.sp = r.sp
  pc : c.pc = r.pc
  pstate : c.pstate = r.pstate
  spsr : c.spsr = r.pstate
  spEl0 : c.spEl0 = r.spEl0

/-- A transition that resumes an interrupted context. -/
structure Resumes (x : Transition Machine Event) (c : Cpu) (s : Saved) : Prop where
  act : x.act = .resume c
  saved : x.pre.saved (framePtr (x.pre.core c)) = some s

/-- The condition on a step: `irq_handler` leaves the vector registers as they are, a context does
while one that was interrupted on its CPU waits, and that one is resumed on this CPU. -/
def Event.LeavesSimd (m : Machine) : Event → Prop
  | run c core _ => core.simd = (m.core c).simd ∨ ∀ f s, m.saved f = some s → s.cpu ≠ c
  | irq _ => True
  | handler c core _ => core.simd = (m.core c).simd
  | resume c => ∀ s, m.saved (framePtr (m.core c)) = some s → s.cpu = c

variable {m m' : Machine} {e : Event} {c : Cpu} {s : Saved}

namespace Machine

/-- A context is resumed in one way. -/
theorem Step.resume_eq (h : Step m (.resume c) m') : m' = m.resume c := by
  cases h
  rfl

/-- The registers after an interrupt. -/
theorem core_irq (m : Machine) (c : Cpu) :
    (m.irq c).core =
      Function.update m.core c (runs irqVectorSave ((m.core c).takeIrq, m.mem)).1 := rfl

/-- The registers after a context is resumed. -/
theorem core_resume (m : Machine) (c : Cpu) :
    (m.resume c).core = Function.update m.core c (runs irqVectorRestore (m.core c, m.mem)).1 := rfl

/-- A context that is resumed has the vector registers of the CPU. -/
theorem simd_resume (m : Machine) (c : Cpu) : ((m.resume c).core c).simd = (m.core c).simd := by
  rw [core_resume, Function.update_self, restore_eq]

/-- The frames after an interrupt: the new one, and those that were saved. -/
theorem saved_irq {f : BitVec 64} (h : (m.irq c).saved f = some s) :
    (f = (m.core c).sp - tfSize ∧ s = ⟨m.core c, c⟩) ∨ m.saved f = some s := by
  have hupdate : Function.update m.saved ((m.core c).sp - tfSize) (some ⟨m.core c, c⟩) f = some s :=
    h
  by_cases hf : f = (m.core c).sp - tfSize
  · rw [hf, Function.update_self] at hupdate
    exact .inl ⟨hf, (Option.some.inj hupdate).symm⟩
  · rw [Function.update_of_ne hf] at hupdate
    exact .inr hupdate

/-- The frames after a context is resumed are among those before. -/
theorem saved_resume {f : BitVec 64} (h : (m.resume c).saved f = some s) : m.saved f = some s := by
  have hupdate : Function.update m.saved (framePtr (m.core c)) none f = some s := h
  by_cases hf : f = framePtr (m.core c)
  · rw [hf, Function.update_self] at hupdate
    cases hupdate
  · rwa [Function.update_of_ne hf] at hupdate

/-- An interrupt keeps the frames that were saved. -/
theorem keeps_irq (hroom : m.Room ((m.core c).sp - tfSize)) : m.Keeps (m.irq c).mem :=
  fun f s hs a ha => save_frame (hroom f s hs a ha)

/-- To resume a context leaves memory alone. -/
theorem mem_resume (m : Machine) (c : Cpu) : (m.resume c).mem = m.mem :=
  congrArg Prod.snd (restore_eq (m.core c) m.mem)

end Machine

/-! ## The frame -/

/-- A frame that is saved holds the context that was interrupted, and lies below its `sp`. -/
structure SavedAt (mem : Mem) (f : BitVec 64) (s : Saved) : Prop where
  holds : (TrapFrame.load mem f).Holds s.core
  addr : f = s.core.sp - tfSize

/-- What holds in every run. -/
def Inv (m : Machine) : Prop := ∀ f s, m.saved f = some s → SavedAt m.mem f s

/-- Memory that keeps the saved frames keeps what they hold. -/
theorem Inv.keeps (h : Inv m) {mem : Mem} (hkeeps : m.Keeps mem) :
    ∀ f s, m.saved f = some s → SavedAt mem f s := by
  intro f s hs
  obtain ⟨hholds, haddr⟩ := h f s hs
  refine ⟨?_, haddr⟩
  rw [TrapFrame.load_congr (hkeeps f s hs)]
  exact hholds

/-- A step keeps the invariant. -/
theorem Inv.step (h : Inv m) (hs : Step m e m') : Inv m' := by
  cases hs with
  | run _ hkeeps => exact h.keeps hkeeps
  | @irq c _ hroom =>
    intro f s hs
    obtain ⟨rfl, rfl⟩ | hs := saved_irq hs
    · exact ⟨save_holds (m.core c) m.mem, rfl⟩
    · exact h.keeps (keeps_irq hroom) f s hs
  | handler _ _ hkeeps => exact h.keeps hkeeps
  | @resume c _ =>
    intro f s hs
    rw [mem_resume]
    exact h f s (saved_resume hs)

/-- A context that is resumed has its general registers. -/
theorem Inv.resume (h : Inv m) (hs : m.saved (framePtr (m.core c)) = some s) :
    Restored s.core ((m.resume c).core c) := by
  obtain ⟨⟨hx, helr, hspsr, hspEl0⟩, haddr⟩ := h _ s hs
  rw [core_resume, Function.update_self, restore_eq]
  refine ⟨hx, ?_, helr, hspsr, hspsr, hspEl0⟩
  show framePtr (m.core c) + tfSize = s.core.sp
  rw [haddr]
  exact BitVec.sub_add_cancel ..

/-! ## The vector registers -/

/-- The vector registers of each CPU are those of the contexts that were interrupted on it. -/
def Quiet (m : Machine) : Prop := ∀ f s, m.saved f = some s → s.core.simd = (m.core s.cpu).simd

/-- That stays so when the code of a CPU leaves its vector registers as they are. -/
theorem Quiet.update (h : Quiet m) {core : Core}
    (hsimd : core.simd = (m.core c).simd ∨ ∀ f s, m.saved f = some s → s.cpu ≠ c) :
    ∀ f s, m.saved f = some s → s.core.simd = (Function.update m.core c core s.cpu).simd := by
  intro f s hs
  by_cases hc : s.cpu = c
  · have hcore := hsimd.resolve_right fun hne => hne f s hs hc
    rw [hc, Function.update_self, hcore, h f s hs, hc]
  · rw [Function.update_of_ne hc]
    exact h f s hs

/-- A step that leaves the vector registers as they are keeps that so. -/
theorem Quiet.step (h : Quiet m) (hleaves : e.LeavesSimd m) (hs : Step m e m') : Quiet m' := by
  cases hs with
  | run => exact h.update hleaves
  | @irq c _ hroom =>
    have hsimd := (save_eq (m.core c) m.mem).2.1
    intro f s hs
    rw [core_irq]
    obtain ⟨rfl, rfl⟩ | hs := saved_irq hs
    · rw [Function.update_self, hsimd]
    · exact h.update (.inl hsimd) f s hs
  | handler => exact h.update (.inl hleaves)
  | @resume c _ =>
    have hsimd : (runs irqVectorRestore (m.core c, m.mem)).1.simd = (m.core c).simd := by
      rw [restore_eq]
    intro f s hs
    rw [core_resume]
    exact h.update (.inl hsimd) f s (saved_resume hs)

/-- In every run, a context that is resumed from its frame has the general registers, `sp`, `pc`,
`SPSR` and `SP_EL0` that it was interrupted with. It has its vector registers if, and only if, they
were in the CPU when the handler returned the frame. They are in every run in which `irq_handler`
and the contexts that run leave them as they are and contexts stay on their CPU. -/
theorem restored_iff (core : Cpu → Core) (mem : Mem) (ts : List (Transition Machine Event))
    (m : Machine) (h : Trace (boot core mem) Step ts m) :
    (∀ x ∈ ts, ∀ c s, Resumes x c s → Restored s.core (x.post.core c) ∧
      ((x.post.core c).simd = s.core.simd ↔ (x.pre.core c).simd = s.core.simd)) ∧
      ((∀ x ∈ ts, x.act.LeavesSimd x.pre) →
        ∀ x ∈ ts, ∀ c s, Resumes x c s → (x.post.core c).simd = s.core.simd) := by
  have hinv : Inv (boot core mem) := fun f s hs => by cases hs
  have hquiet : Quiet (boot core mem) := fun f s hs => by cases hs
  -- `resume` reads the frame that `save` has left; the vector registers are not in it
  have hresume : ∀ x ∈ ts, ∀ c s, Resumes x c s →
      Restored s.core (x.post.core c) ∧ (x.post.core c).simd = (x.pre.core c).simd := by
    intro x hx c s hr
    obtain ⟨hpre, hstep⟩ := h.of_mem hinv (fun _ _ _ hi hs => hi.step hs) x hx
    rw [hr.act] at hstep
    rw [hstep.resume_eq]
    exact ⟨hpre.resume hr.saved, simd_resume x.pre c⟩
  refine ⟨fun x hx c s hr => ?_, fun hleaves x hx c s hr => ?_⟩
  · obtain ⟨hrestored, hsimd⟩ := hresume x hx c s hr
    exact ⟨hrestored, by rw [hsimd]⟩
  · obtain ⟨-, hsimd⟩ := hresume x hx c s hr
    have hcpu : s.cpu = c := by
      have hstay := hleaves x hx
      rw [hr.act] at hstay
      exact hstay s hr.saved
    obtain ⟨hpre, -⟩ :=
      (h.restrict hleaves).of_mem hquiet (fun _ _ _ hq ha => hq.step ha.1 ha.2) x hx
    rw [hsimd, hpre _ s hr.saved, hcpu]

/-- `irq_handler` without a switch: it returns the frame that it was called with, and leaves the
vector registers as given. -/
def returnSame (m : Machine) (c : Cpu) (simd : Simd) : Machine :=
  (m.irq c).set c { (m.irq c).core c with simd := simd } (m.irq c).mem .returned

/-- From every state of a run, an interrupt without a switch. The context goes on with the vector
registers that the handler leaves, which may be any with the low halves of `v8` to `v15` kept. -/
theorem exists_returnSame {start : Machine} {ts : List (Transition Machine Event)}
    (h : Trace start Step ts m) (hphase : m.phase c = .running)
    (hroom : m.Room ((m.core c).sp - tfSize)) (simd : Simd)
    (hv : ∀ n : Fin 32, 8 ≤ n → n ≤ 15 →
      (simd.v n).setWidth 64 = ((m.core c).simd.v n).setWidth 64) :
    ∃ ts' x, Trace start Step (x :: (ts' ++ ts)) x.post ∧ Resumes x c ⟨m.core c, c⟩ ∧
      (x.post.core c).simd = simd := by
  obtain ⟨hx, hsimd, -⟩ := save_eq (m.core c) m.mem
  have hcall : (m.irq c).core c = (runs irqVectorSave ((m.core c).takeIrq, m.mem)).1 :=
    Function.update_self ..
  have hreturn : (returnSame m c simd).core c = { (m.irq c).core c with simd := simd } :=
    Function.update_self ..
  have hirq : Step m (.irq c) (m.irq c) := .irq hphase hroom
  have hhandler : Step (m.irq c) (.handler c { (m.irq c).core c with simd := simd } (m.irq c).mem)
      (returnSame m c simd) := by
    refine .handler (Function.update_self ..) ⟨fun _ _ _ => rfl, rfl, fun n h8 h15 => ?_⟩
      fun _ _ _ _ _ => rfl
    rw [hcall, hsimd]
    exact hv n h8 h15
  have hresume : Step (returnSame m c simd) (.resume c) _ := .resume (Function.update_self ..)
  refine ⟨[_, _], ⟨_, _, _⟩, ((h.cons hirq).cons hhandler).cons hresume, ⟨rfl, ?_⟩, ?_⟩
  · rw [hreturn, hcall]
    show Function.update _ _ _ (framePtr (runs irqVectorSave ((m.core c).takeIrq, m.mem)).1) = _
    rw [hx]
    exact Function.update_self ..
  · rw [simd_resume, hreturn]

/-- A context with a value in each vector register. -/
def onesCore : Core where
  x _ := 0
  sp := 0x90000
  pc := 0x80000
  pstate := 0x5
  elr := 0
  spsr := 0
  spEl0 := 0
  simd := ⟨fun _ => 1, 0, 0⟩

/-- It is interrupted on CPU 0, and resumed with the vector registers that the handler leaves. -/
theorem trace_onesCore (simd : Simd)
    (hv : ∀ n : Fin 32, 8 ≤ n → n ≤ 15 → (simd.v n).setWidth 64 = 1) :
    ∃ ts m, Trace (boot (fun _ => onesCore) fun _ => 0) Step ts m ∧
      ∃ x ∈ ts, Resumes x 0 ⟨onesCore, 0⟩ ∧ (x.post.core 0).simd = simd := by
  have hnil : Trace (boot (fun _ => onesCore) fun _ => 0) Step [] _ := .nil
  obtain ⟨ts, x, h, hr, hsimd⟩ := exists_returnSame hnil rfl (fun _ _ hs => by cases hs) simd hv
  exact ⟨_, _, h, x, .head _, hr, hsimd⟩

/-- `restored_iff` of a handler that leaves the vector registers alone. -/
theorem restored_iff_same : ∃ ts m, Trace (boot (fun _ => onesCore) fun _ => 0) Step ts m ∧
    ∃ x ∈ ts, Resumes x 0 ⟨onesCore, 0⟩ ∧ Restored onesCore (x.post.core 0) ∧
      (x.pre.core 0).simd = onesCore.simd := by
  obtain ⟨ts, m, h, x, hx, hr, hsimd⟩ := trace_onesCore onesCore.simd fun _ _ _ => rfl
  obtain ⟨hrestored, hiff⟩ := (restored_iff _ _ _ _ h).1 x hx 0 _ hr
  exact ⟨ts, m, h, x, hx, hr, hrestored, hiff.mp hsimd⟩

/-- A handler that leaves zero in the caller-saved `v0` spoils it for the interrupted context. -/
theorem not_restored : ¬ ∀ core mem ts m, Trace (boot core mem) Step ts m →
    ∀ x ∈ ts, ∀ c s, Resumes x c s →
      Restored s.core (x.post.core c) ∧ (x.post.core c).simd = s.core.simd := by
  intro hall
  obtain ⟨ts, m, h, x, hx, hr, hsimd⟩ :=
    trace_onesCore ⟨fun n => if n = 0 then 0 else 1, 0, 0⟩ (by decide)
  have hsame := (hall _ _ ts m h x hx 0 _ hr).2
  rw [hsimd] at hsame
  have hv0 : (0 : BitVec 128) = 1 := congrArg (fun s : Simd => s.v 0) hsame
  exact absurd hv0 (by decide)

end Ralix.Arch
