import Mathlib.Logic.Relation
import Mathlib.Tactic.Common

/-!
# Loops that may fail

A `while` loop of an imperative program, as data: a body that either goes round again in a new
state, leaves with a result, or fails, and a measure that every further iteration decreases. A
loop carries the proof that its measure decreases, so `Loop.run` is total, and because it recurses
on the bound itself the kernel can evaluate it. `Loop.Reaches` is the relation between the states
at two iterations of one run. It is how facts about a part of a run compose: `Reaches.run_eq`
moves a run along it, `run_ok_iff` says that a run succeeds exactly when no iteration fails, and
`Reaches.inv` is the invariant rule.
-/

namespace Ralix.Lib

/-- What one iteration of a loop does when it does not fail: it goes round again, in a new state,
or it leaves the loop with a result. -/
inductive Iter (σ ρ : Type) where
  | next (s : σ)
  | done (r : ρ)
deriving DecidableEq, Repr

/-- A loop over states `σ` with results `ρ` and failures `ε`, with a measure that decreases from
each iteration to the next. -/
structure Loop (ε σ ρ : Type) where
  /-- One iteration. -/
  body : σ → Except ε (Iter σ ρ)
  /-- An upper bound on the iterations that follow a state. -/
  measure : σ → ℕ
  /-- Going round again decreases the measure. -/
  decreases : ∀ {s s'}, body s = .ok (.next s') → measure s' < measure s

namespace Loop

variable {ε σ ρ : Type} (L : Loop ε σ ρ)

/-- The loop from a state whose measure is below `n`. -/
def runAux : (n : ℕ) → (s : σ) → L.measure s < n → Except ε ρ
  | 0, _, h => absurd h (Nat.not_lt_zero _)
  | n + 1, s, h =>
    match hb : L.body s with
    | .error e => .error e
    | .ok (.done r) => .ok r
    | .ok (.next s') => runAux n s' (Nat.lt_of_lt_of_le (L.decreases hb) (Nat.le_of_lt_succ h))

/-- The loop from a state, up to its result or its failure. -/
def run (s : σ) : Except ε ρ := L.runAux (L.measure s + 1) s (Nat.lt_succ_self _)

/-- The bound does not matter to the result. -/
theorem runAux_congr (n m : ℕ) (s : σ) (hn : L.measure s < n) (hm : L.measure s < m) :
    L.runAux n s hn = L.runAux m s hm := by
  induction n generalizing m s with
  | zero => exact absurd hn (Nat.not_lt_zero _)
  | succ n ih =>
    cases m with
    | zero => exact absurd hm (Nat.not_lt_zero _)
    | succ m =>
      unfold runAux
      split
      · rfl
      · rfl
      · exact ih _ _ _ _

/-- A loop whose body fails fails. -/
theorem run_error {s : σ} {e : ε} (h : L.body s = .error e) : L.run s = .error e := by
  unfold run runAux
  split <;> simp_all

/-- A loop whose body leaves returns its result. -/
theorem run_done {s : σ} {r : ρ} (h : L.body s = .ok (.done r)) : L.run s = .ok r := by
  unfold run runAux
  split <;> simp_all

/-- A loop whose body goes round again continues from the new state. -/
theorem run_next {s s' : σ} (h : L.body s = .ok (.next s')) : L.run s = L.run s' := by
  conv_lhs => unfold run runAux
  split
  · simp_all
  · simp_all
  · rename_i s'' hb
    rw [h] at hb
    cases hb
    exact L.runAux_congr _ _ _ _ _

/-- What is left to do after an iteration. -/
def after (k : σ → Except ε ρ) : Iter σ ρ → Except ε ρ
  | .next s => k s
  | .done r => .ok r

/-- A loop is its first iteration and what is left to do after it. -/
theorem run_eq (s : σ) : L.run s = L.body s >>= after L.run := by
  match hb : L.body s with
  | .error e => rw [L.run_error hb]; rfl
  | .ok (.done r) => rw [L.run_done hb]; rfl
  | .ok (.next s') => rw [L.run_next hb]; rfl

/-- The body takes `s` round again to `s'`. -/
def Next (s s' : σ) : Prop := L.body s = .ok (.next s')

/-- Some number of iterations take `s` to `s'`. -/
def Reaches : σ → σ → Prop := Relation.ReflTransGen L.Next

variable {L}

/-- A state reaches itself. -/
theorem Reaches.refl (s : σ) : L.Reaches s s := Relation.ReflTransGen.refl

/-- Two parts of a run compose. -/
theorem Reaches.trans {s t u : σ} (h : L.Reaches s t) (h' : L.Reaches t u) : L.Reaches s u :=
  Relation.ReflTransGen.trans h h'

/-- One iteration is a part of a run. -/
theorem Reaches.single {s t : σ} (h : L.body s = .ok (.next t)) : L.Reaches s t :=
  Relation.ReflTransGen.single h

/-- A run does not change along its own iterations. -/
theorem Reaches.run_eq {s t : σ} (h : L.Reaches s t) : L.run s = L.run t := by
  induction h with
  | refl => rfl
  | tail _ hstep ih => rw [ih, L.run_next hstep]

/-- An invariant of the body holds in every state of a run. -/
theorem Reaches.inv {I : σ → Prop} (hI : ∀ {s s'}, I s → L.body s = .ok (.next s') → I s')
    {s t : σ} (h : L.Reaches s t) (hs : I s) : I t := by
  induction h with
  | refl => exact hs
  | tail _ hstep ih => exact hI ih hstep

variable (L)

/-- A run either fails in a state that it reaches, or returns from one. -/
theorem run_cases (s : σ) :
    ∃ t, L.Reaches s t ∧ ((∃ e, L.body t = .error e ∧ L.run s = .error e) ∨
      ∃ r, L.body t = .ok (.done r) ∧ L.run s = .ok r) := by
  induction hn : L.measure s using Nat.strongRecOn generalizing s with
  | ind n ih =>
    match hb : L.body s with
    | .error e => exact ⟨s, .refl s, .inl ⟨e, hb, L.run_error hb⟩⟩
    | .ok (.done r) => exact ⟨s, .refl s, .inr ⟨r, hb, L.run_done hb⟩⟩
    | .ok (.next s') =>
      obtain ⟨t, ht, hcase⟩ := ih _ (hn ▸ L.decreases hb) s' rfl
      refine ⟨t, (Reaches.single hb).trans ht, ?_⟩
      rwa [L.run_next hb]

/-- A run returns exactly when no state that it reaches fails. -/
theorem run_ok_iff (s : σ) :
    (∃ r, L.run s = .ok r) ↔ ∀ t, L.Reaches s t → ∃ i, L.body t = .ok i := by
  constructor
  · rintro ⟨r, hr⟩ t ht
    rw [ht.run_eq] at hr
    match hb : L.body t with
    | .error e => rw [L.run_error hb] at hr; cases hr
    | .ok i => exact ⟨i, rfl⟩
  · intro h
    obtain ⟨t, ht, ⟨e, hb, -⟩ | ⟨r, -, hr⟩⟩ := L.run_cases s
    · obtain ⟨i, hi⟩ := h t ht
      rw [hb] at hi
      cases hi
    · exact ⟨r, hr⟩

end Loop

end Ralix.Lib
