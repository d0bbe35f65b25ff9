import Ralix.Lib.Trace

/-!
# Sequential objects

An object has a state of its own, and serves one request after another: `serve` says what it answers
and what its state is then. `History serve x h y` says that the requests and answers of `h`, in order,
are what the object does from `x`, and that it ends in `y`.

A system may hold such objects, and serve many of them by turns. `Trace.history` is the rule by which
one of them is found to behave as if it were alone: if each step of the system is, for the object, no
more than a few requests served, then so is every run from the step in which the object came into
being. As an object decides its answers, two histories with the same requests have the same ones
(`History.unique`).
-/

namespace Ralix.Lib

variable {σ α τ ρ β : Type}

/-- The answers to requests in a row, and the state after them. -/
def serves (serve : τ → ρ → β × τ) : τ → List ρ → List β × τ
  | x, [] => ([], x)
  | x, r :: rs =>
    let (a, y) := serve x r
    let (as, z) := serves serve y rs
    (a :: as, z)

/-- Requests and their answers, in order, from one state of the object to another. -/
def History (serve : τ → ρ → β × τ) (x : τ) (h : List (ρ × β)) (y : τ) : Prop :=
  serves serve x (h.map Prod.fst) = (h.map Prod.snd, y)

variable {serve : τ → ρ → β × τ} {x y z : τ}

namespace History

/-- Nothing was asked. -/
theorem nil (x : τ) : History serve x [] x := rfl

/-- One request. -/
theorem single {r : ρ} {a : β} (h : serve x r = (a, y)) : History serve x [(r, a)] y := by
  simp [History, serves, h]

/-- A history goes on from where one ended. -/
theorem append {h h' : List (ρ × β)} (hxy : History serve x h y) (hyz : History serve y h' z) :
    History serve x (h ++ h') z := by
  induction h generalizing x with
  | nil =>
    cases hxy
    exact hyz
  | cons c h ih =>
    simp only [History, List.map_cons, serves, Prod.mk.injEq, List.cons.injEq] at hxy
    obtain ⟨⟨hanswer, hrest⟩, hend⟩ := hxy
    have htail := ih (x := (serve x c.1).2) (Prod.ext hrest hend)
    simp only [History, List.cons_append, List.map_cons, serves]
    rw [hanswer, htail]

/-- The requests decide the answers. -/
theorem unique {h h' : List (ρ × β)} {y' : τ} (hh : History serve x h y)
    (hh' : History serve x h' y') (hreq : h.map Prod.fst = h'.map Prod.fst) : h = h' ∧ y = y' := by
  unfold History at hh hh'
  rw [hreq, hh', Prod.mk.injEq] at hh
  refine ⟨?_, hh.2.symm⟩
  have hzip : ∀ l : List (ρ × β), l = (l.map Prod.fst).zip (l.map Prod.snd) := by
    intro l
    rw [List.zip_map', List.map_id']
  rw [hzip h, hzip h', hreq, hh.1]

/-- The history of an object that answers nothing is a fold. -/
theorem of_foldl (f : τ → ρ → τ) (x : τ) (rs : List ρ) :
    History (fun x r => ((), f x r)) x (rs.map fun r => (r, ())) (rs.foldl f x) := by
  induction rs generalizing x with
  | nil => rfl
  | cons r rs ih =>
    have hhead : History (fun x r => ((), f x r)) x [(r, ())] (f x r) := .single rfl
    exact hhead.append (ih (f x r))

end History

/-- What a step of a system is to one of its objects: before the object exists, nothing is asked of it,
and from then on it serves the calls of the step. -/
structure StepServes (serve : τ → ρ → β × τ) (before : Option τ) (calls : List (ρ × β))
    (after : Option τ) : Prop where
  absent : before = none → calls = []
  serves : ∀ x, before = some x → ∃ y, after = some y ∧ History serve x calls y

/-- A step that asks nothing of the object and leaves it as it is. -/
theorem StepServes.idle {before after : Option τ} (h : after = before) :
    StepServes serve before [] after where
  absent _ := rfl
  serves x hx := ⟨x, h.trans hx, .nil x⟩

/-- A step in which the object may come into being. -/
theorem StepServes.absent_of {before after : Option τ} (h : before = none) :
    StepServes serve before [] after where
  absent _ := rfl
  serves x hx := by
    rw [h] at hx
    cases hx

/-- A step in which an object comes into being. -/
structure Born (view : σ → Option τ) (t : Transition σ α) (x : τ) : Prop where
  pre : view t.pre = none
  post : view t.post = some x

/-- In every run, an object that exists at the end came into being in one of the steps, and the calls
of the run are its history since. -/
theorem Trace.history {start s : σ} {step : σ → α → σ → Prop} {ts : List (Transition σ α)}
    {P : σ → Prop} (h : Trace start step ts s) (view : σ → Option τ)
    (calls : Transition σ α → List (ρ × β)) (h0 : P start) (hkeep : ∀ s a s', P s → step s a s' → P s')
    (hstart : view start = none)
    (hstep : ∀ s a s', P s → step s a s' → StepServes serve (view s) (calls ⟨s, a, s'⟩) (view s')) :
    (view s = none → yielded calls ts = [] ∧ ∀ t ∈ ts, ∀ x, ¬Born view t x) ∧
      ∀ y, view s = some y → (∃ t ∈ ts, ∃ x, Born view t x) ∧
        ∀ t ∈ ts, ∀ x, Born view t x → History serve x (yielded calls ts) y := by
  induction h with
  | nil => exact ⟨fun _ => ⟨rfl, nofun⟩, fun y hy => absurd (hstart.symm.trans hy) nofun⟩
  | @cons ts s s' a ht hs ih =>
    have hserves := hstep s a s' (ht.inv h0 hkeep) hs
    simp only [yielded_cons, List.mem_cons, forall_eq_or_imp, exists_eq_or_imp]
    cases hview : view s with
    | none =>
      -- The object came into being just now, or does not exist yet.
      obtain ⟨hnil, hunborn⟩ := ih.1 hview
      rw [hnil, hserves.absent hview]
      refine ⟨fun hnone => ⟨rfl, fun x hx => ?_, hunborn⟩, fun y hy => ⟨.inl ⟨y, hview, hy⟩, ?_, ?_⟩⟩
      · exact absurd (hnone.symm.trans hx.post) nofun
      · intro x hx
        obtain rfl := Option.some.inj (hx.post.symm.trans hy)
        exact .nil x
      · exact fun t ht x hx => absurd hx (hunborn t ht x)
    | some x =>
      obtain ⟨y, hy, hcalls⟩ := hserves.serves x hview
      obtain ⟨hborn, hhist⟩ := ih.2 x hview
      refine ⟨fun hnone => absurd (hnone.symm.trans hy) nofun, fun y' hy' => ⟨.inr hborn, ?_, ?_⟩⟩
      · exact fun x' hx' => absurd (hview.symm.trans hx'.pre) nofun
      · intro t ht x' hx'
        obtain rfl := Option.some.inj (hy.symm.trans hy')
        exact (hhist t ht x' hx').append hcalls

end Ralix.Lib
