import Mathlib.Data.List.Basic
import Ralix.Lib.Exec

/-!
# Runs with their steps

A run of a step relation, kept together with the steps it took, so that a statement about a run may
speak of its history: of the last step of some kind, of every state it passed through, or of a
condition that each of its steps meets. `Trace.inv` is the induction over a run, and `Trace.always_iff`
tells from single steps when a property holds in every state of a run: exactly if each step meets
the condition under which it keeps the property.
-/

namespace Ralix.Lib

/-- A step that a run took: the state before it, the action, and the state after it. -/
structure Transition (σ α : Type) where
  pre : σ
  act : α
  post : σ

variable {σ α : Type}

/-- The runs from `start` with their steps, the latest first, and the states that they end in. -/
inductive Trace (start : σ) (step : σ → α → σ → Prop) : List (Transition σ α) → σ → Prop
  | nil : Trace start step [] start
  | cons {ts : List (Transition σ α)} {s s' : σ} {a : α} :
      Trace start step ts s → step s a s' → Trace start step (⟨s, a, s'⟩ :: ts) s'

/-- The states that a run from `start` passed through, the latest first. -/
def reached (start : σ) (ts : List (Transition σ α)) : List σ := ts.map Transition.post ++ [start]

namespace Trace

variable {start s : σ} {step : σ → α → σ → Prop} {ts : List (Transition σ α)}

/-- A run passes through the state that it ends in. -/
theorem end_mem_reached (h : Trace start step ts s) : s ∈ reached start ts := by
  cases h <;> simp [reached]

/-- What holds at the start and is kept by every step holds at the end of a run. -/
theorem inv {P : σ → Prop} (h : Trace start step ts s) (h0 : P start)
    (hstep : ∀ s a s', P s → step s a s' → P s') : P s := by
  induction h with
  | nil => exact h0
  | cons _ hs ih => exact hstep _ _ _ ih hs

/-- Each step of a run is a step, from a state with the invariants of the run. -/
theorem of_mem {P : σ → Prop} (h : Trace start step ts s) (h0 : P start)
    (hstep : ∀ s a s', P s → step s a s' → P s') :
    ∀ x ∈ ts, P x.pre ∧ step x.pre x.act x.post := by
  induction h with
  | nil => simp
  | cons ht hs ih => exact List.forall_mem_cons.mpr ⟨⟨ht.inv h0 hstep, hs⟩, ih⟩

/-- A run whose steps meet a condition is a run of the steps that meet it. -/
theorem restrict {Ok : σ → α → Prop} (h : Trace start step ts s)
    (hok : ∀ x ∈ ts, Ok x.pre x.act) :
    Trace start (fun s a s' => Ok s a ∧ step s a s') ts s := by
  induction h with
  | nil => exact .nil
  | cons _ hs ih =>
    obtain ⟨ha, hok⟩ := List.forall_mem_cons.mp hok
    exact (ih hok).cons ⟨ha, hs⟩

/-- A property that each step keeps under a condition holds in every state of a run whose steps meet
the condition. -/
theorem always {P : σ → Prop} {Ok : σ → α → Prop} (h : Trace start step ts s) (h0 : P start)
    (hstep : ∀ s a s', P s → Ok s a → step s a s' → P s') (hok : ∀ x ∈ ts, Ok x.pre x.act) :
    ∀ t ∈ reached start ts, P t := by
  induction h with
  | nil => simpa [reached] using h0
  | @cons ts s s' a ht hs ih =>
    obtain ⟨ha, hok⟩ := List.forall_mem_cons.mp hok
    have hall := ih hok
    exact List.forall_mem_cons.mpr ⟨hstep s a s' (hall s ht.end_mem_reached) ha hs, hall⟩

/-- A property that each step keeps exactly under a condition holds in every state of a run exactly
if each step of the run meets the condition. -/
theorem always_iff {P Q : σ → Prop} {Ok : σ → α → Prop} (h : Trace start step ts s) (h0 : P start)
    (hstep : ∀ s a s', P s → step s a s' → P s') (hq : Q start)
    (hok : ∀ s a s', P s → Q s → step s a s' → (Q s' ↔ Ok s a)) :
    (∀ t ∈ reached start ts, Q t) ↔ ∀ x ∈ ts, Ok x.pre x.act := by
  induction h with
  | nil => simpa [reached] using hq
  | @cons ts s s' a ht hs ih =>
    have hlast : (∀ t ∈ reached start ts, Q t) → Q s := fun hall => hall s ht.end_mem_reached
    rw [List.forall_mem_cons, ← ih]
    show (∀ t ∈ s' :: reached start ts, Q t) ↔ _
    rw [List.forall_mem_cons]
    refine and_congr_left fun hall => ?_
    exact hok s a s' (ht.inv h0 hstep) (hlast hall) hs

/-- A run is one of every relation that its steps meet. -/
theorem imp {step' : σ → α → σ → Prop} (h : Trace start step ts s)
    (hstep : ∀ s a s', step s a s' → step' s a s') : Trace start step' ts s := by
  induction h with
  | nil => exact .nil
  | cons _ hs ih => exact ih.cons (hstep _ _ _ hs)

/-- A run after a run. -/
theorem append {t : σ} {us : List (Transition σ α)} (h : Trace start step ts s)
    (h' : Trace s step us t) : Trace start step (us ++ ts) t := by
  induction h' with
  | nil => exact h
  | cons _ hs ih => exact ih.cons hs

end Trace

/-! ## Queues -/

section Queues

variable {start s : σ} {step : σ → α → σ → Prop} {ts : List (Transition σ α)} {β : Type}

/-- What the steps of a run yield, the earliest first. -/
def yielded (f : Transition σ α → List β) (ts : List (Transition σ α)) : List β :=
  ts.reverse.flatMap f

/-- The last step yields the last. -/
@[simp] theorem yielded_cons (f : Transition σ α → List β) (x : Transition σ α)
    (ts : List (Transition σ α)) : yielded f (x :: ts) = yielded f ts ++ f x := by
  simp [yielded]

/-- What a run yields, and then a run after it. -/
theorem yielded_append (f : Transition σ α → List β) (us ts : List (Transition σ α)) :
    yielded f (us ++ ts) = yielded f ts ++ yielded f us := by
  simp [yielded]

/-- If each step takes from the front of a queue and puts to its end, then so does a run: what was
queued and what was put there comes out in that order, and the rest is queued. -/
theorem Trace.fifo {P : σ → Prop} {queue : σ → List β} {puts takes : Transition σ α → List β}
    (h : Trace start step ts s) (h0 : P start) (hkeep : ∀ s a s', P s → step s a s' → P s')
    (hstep : ∀ s a s', P s → step s a s' →
      queue s ++ puts ⟨s, a, s'⟩ = takes ⟨s, a, s'⟩ ++ queue s') :
    queue start ++ yielded puts ts = yielded takes ts ++ queue s := by
  induction h with
  | nil => simp [yielded]
  | @cons ts s s' a ht hs ih =>
    rw [yielded_cons, yielded_cons, ← List.append_assoc, ih, List.append_assoc, List.append_assoc,
      hstep s a s' (ht.inv h0 hkeep) hs]

/-- What is at some place of the queue is what comes out after as many others. -/
theorem getElem?_of_fifo {front back outs rest : List β} (h : front ++ back = outs ++ rest) {k : ℕ}
    (hk : k < outs.length) (hk' : k < front.length) : outs[k]? = front[k]? := by
  calc outs[k]? = (outs ++ rest)[k]? := (List.getElem?_append_left hk).symm
    _ = (front ++ back)[k]? := by rw [h]
    _ = front[k]? := List.getElem?_append_left hk'

end Queues

/-- The steps of a list of actions, none of which stops, after the steps `ts` that led to `s`. -/
def replay (run : α → σ → Exec σ) :
    List α → List (Transition σ α) → σ → Exec (List (Transition σ α) × σ)
  | [], ts, s => .ok (ts, s)
  | a :: as, ts, s => run a s >>= fun s' => replay run as (⟨s, a, s'⟩ :: ts) s'

/-- Actions that all return make a run. -/
theorem Trace.of_replay {run : α → σ → Exec σ} {as : List α} {start s s' : σ}
    {ts ts' : List (Transition σ α)} (h : Trace start (fun s a s' => run a s = .ok s') ts s)
    (hr : replay run as ts s = .ok (ts', s')) :
    Trace start (fun s a s' => run a s = .ok s') ts' s' := by
  induction as generalizing s ts with
  | nil =>
    cases hr
    exact h
  | cons a as ih =>
    obtain ⟨s₁, hs₁, hr⟩ := Exec.bind_eq_ok.mp hr
    exact ih (h.cons hs₁) hr

end Ralix.Lib
