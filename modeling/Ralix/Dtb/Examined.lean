import Ralix.Dtb.Tree

/-!
# The properties that a walk comes to

A walk comes to properties one after another until it returns, at the end of the blob or before, or
panics. `Visitor.traced` is a visitor that also records them, with its variables at each, and keeps a
panic as a result, so that the record is there however the walk ends. `examined` is the record of a walk
over a blob. On a blob of a device tree it is that of the visitor's fold over the tree
(`examined_eq`).
-/

namespace Ralix.Dtb

open Lib

/-- A property that a walk comes to, and the visitor's variables before it. -/
structure Seen (σ : Type) where
  name : Bytes
  value : Bytes
  before : σ

section Traced

variable {σ ρ : Type}

/-- What follows a part of a walk, with the record. -/
def recorded (log : List (Seen σ)) :
    Exec (Iter σ ρ) → Iter (σ × List (Seen σ)) (Exec ρ × List (Seen σ))
  | .ok (.next s) => .next (s, log)
  | .ok (.done r) => .done (.ok r, log)
  | .error e => .done (.error e, log)

/-- A visitor that also records the properties that it comes to. -/
def Visitor.traced (v : Visitor σ ρ) : Visitor (σ × List (Seen σ)) (Exec ρ × List (Seen σ)) where
  beginNode name s := do
    return (← v.beginNode name s.1, s.2)
  endNode s := .ok (recorded s.2 (v.endNode s.1))
  prop name value s := .ok (recorded (s.2 ++ [⟨name, value, s.1⟩]) (v.prop name value s.1))
  finish s := (.ok (v.finish s.1), s.2)

/-- The properties that a walk over a blob comes to, in order. -/
def examined (b : Blob) (v : Visitor σ ρ) (s : σ) : List (Seen σ) :=
  match walk b v.traced (s, []) with
  | .ok (_, log) => log
  | .error _ => []

/-- What comes after a part of a walk that goes on. -/
def whenNext (x : Exec (Iter σ ρ)) (f : σ → List (Seen σ)) : List (Seen σ) :=
  match x with
  | .ok (.next s) => f s
  | _ => []

/-- Nothing comes after a part of a walk that does not go on. -/
theorem whenNext_eq_nil {x : Exec (Iter σ ρ)} (h : ∀ s, x ≠ .ok (.next s)) (f : σ → List (Seen σ)) :
    whenNext x f = [] := by
  unfold whenNext
  split
  · rename_i s
    exact absurd rfl (h s)
  · rfl

/-- The properties that a visitor comes to in a tree. -/
def Visitor.seen (v : Visitor σ ρ) : Items → σ → List (Seen σ)
  | .nil, _ => []
  | .prop name value rest, s => ⟨name, value, s⟩ :: whenNext (v.prop name value s) (v.seen rest)
  | .node name items rest, s =>
    match v.beginNode name s with
    | .ok s => v.seen items s ++ whenNext (andThen (v.fold items s) v.endNode) (v.seen rest)
    | .error _ => []

variable {v : Visitor σ ρ} {I : σ → Prop}

/-- If one part of a walk after another goes on, both do. -/
theorem andThen_eq_next {x : Exec (Iter σ ρ)} {f : σ → Exec (Iter σ ρ)} {s' : σ}
    (h : andThen x f = .ok (.next s')) : ∃ t, x = .ok (.next t) ∧ f t = .ok (.next s') := by
  obtain ⟨i, hi, h⟩ := Exec.bind_eq_ok.mp h
  cases i with
  | next t => exact ⟨t, hi, h⟩
  | done r => cases h

/-- A part of a walk keeps the invariant. -/
theorem Visitor.Keeps.fold (hkeeps : v.Keeps I) (items : Items) {s s' : σ} (hs : I s)
    (h : v.fold items s = .ok (.next s')) : I s' := by
  induction items generalizing s s' with
  | nil =>
    cases h
    exact hs
  | prop name value rest ih =>
    obtain ⟨t, hprop, hrest⟩ := andThen_eq_next h
    exact ih (hkeeps.prop hs hprop) hrest
  | node name items rest ih ih' =>
    obtain ⟨t, hbegin, h⟩ := Exec.bind_eq_ok.mp h
    obtain ⟨u, hu, hrest⟩ := andThen_eq_next h
    obtain ⟨w, hw, hend⟩ := andThen_eq_next hu
    have hchild := ih (hkeeps.inv_begin hs hbegin) hw
    exact ih' (hkeeps.inv_end hchild hend) hrest

/-- The record of one part of a walk after another. -/
theorem recorded_andThen {x : Exec (Iter σ ρ)} {f : σ → Exec (Iter σ ρ)} {k : σ → List (Seen σ)}
    {g : σ × List (Seen σ) → Exec (Iter (σ × List (Seen σ)) (Exec ρ × List (Seen σ)))}
    {log : List (Seen σ)}
    (hnext : ∀ s, x = .ok (.next s) → g (s, log) = .ok (recorded (log ++ k s) (f s))) :
    andThen (.ok (recorded log x)) g = .ok (recorded (log ++ whenNext x k) (andThen x f)) := by
  cases x with
  | error e =>
    show _ = Except.ok (recorded (log ++ []) _)
    rw [List.append_nil]
    rfl
  | ok i =>
    cases i with
    | next s => exact hnext s rfl
    | done r =>
      show _ = Except.ok (recorded (log ++ []) _)
      rw [List.append_nil]
      rfl

/-- The record does not change what a visitor does at the tokens of a tree. -/
theorem fold_traced (hkeeps : v.Keeps I) (items : Items) {s : σ} (hs : I s) (log : List (Seen σ)) :
    v.traced.fold items (s, log) = .ok (recorded (log ++ v.seen items s) (v.fold items s)) := by
  induction items generalizing s log with
  | nil =>
    rw [Visitor.seen, List.append_nil]
    rfl
  | prop name value rest ih =>
    have hprop : v.traced.prop name value (s, log) =
      .ok (recorded (log ++ [⟨name, value, s⟩]) (v.prop name value s)) := rfl
    have hrest := recorded_andThen (x := v.prop name value s) (f := v.fold rest)
      (k := v.seen rest) fun s' hs' => ih (hkeeps.prop hs hs') (log ++ [⟨name, value, s⟩])
    rw [List.append_assoc, List.singleton_append] at hrest
    rw [Visitor.fold, Visitor.fold, Visitor.seen, hprop]
    exact hrest
  | node name items rest ih ih' =>
    obtain ⟨s₁, hbegin, hs₁⟩ := hkeeps.beginNode name hs
    have hbegin' : v.traced.beginNode name (s, log) = .ok (s₁, log) := by
      show v.beginNode name s >>= _ = _
      rw [hbegin]
      rfl
    -- The end of the node adds nothing to the record.
    have hend : andThen (.ok (recorded (log ++ v.seen items s₁) (v.fold items s₁))) v.traced.endNode =
        .ok (recorded (log ++ v.seen items s₁) (andThen (v.fold items s₁) v.endNode)) := by
      cases v.fold items s₁ with
      | error e => rfl
      | ok i =>
        cases i with
        | next s₂ => rfl
        | done r => rfl
    rw [Visitor.fold, Visitor.fold, Visitor.seen, hbegin, hbegin', Exec.ok_bind, Exec.ok_bind, ih hs₁,
      hend]
    dsimp only
    rw [← List.append_assoc]
    refine recorded_andThen fun s₃ hs₃ => ih' ?_ _
    refine hkeeps.fold (.node name items .nil) hs ?_
    rw [Visitor.fold, hbegin, Exec.ok_bind, hs₃]
    rfl

/-- The record of a walk over a blob of a device tree is that of the visitor's fold over the tree. -/
theorem examined_eq (hkeeps : v.Keeps I) {b : Blob} {root : Bytes} {items : Items}
    (h : Flattens b root items) {s : σ} (hs : I s) :
    walk b v.traced (s, []) = .ok (walk b v s, examined b v s) ∧
      examined b v s = v.seen (.node root items .nil) s := by
  have hwalk : walk b v.traced (s, []) =
      .ok (walk b v s, v.seen (.node root items .nil) s) := by
    rw [walk_flattens h, walk_flattens h, fold_traced hkeeps _ hs, List.nil_append]
    match v.fold (.node root items .nil) s with
    | .ok (.next s') => rfl
    | .ok (.done r) => rfl
    | .error e => rfl
  have hexamined : examined b v s = v.seen (.node root items .nil) s := by
    rw [examined, hwalk]
  rw [hexamined]
  exact ⟨hwalk, rfl⟩

/-! ## Where a walk returns -/

/-- The visitor goes on at a property that the walk comes to. -/
def Visitor.Passes (v : Visitor σ ρ) (x : Seen σ) : Prop :=
  ∃ s, v.prop x.name x.value x.before = .ok (.next s)

/-- A walk that goes on has gone on at each property. -/
theorem passes_of_next {items : Items} {s s' : σ} (h : v.fold items s = .ok (.next s')) :
    ∀ x ∈ v.seen items s, v.Passes x := by
  induction items generalizing s s' with
  | nil => exact List.forall_mem_nil _
  | prop name value rest ih =>
    obtain ⟨t, hprop, hrest⟩ := andThen_eq_next h
    rw [Visitor.seen, hprop, List.forall_mem_cons]
    exact ⟨⟨t, hprop⟩, ih hrest⟩
  | node name items rest ih ih' =>
    obtain ⟨t, hbegin, h⟩ := Exec.bind_eq_ok.mp h
    obtain ⟨u, hu, hrest⟩ := andThen_eq_next h
    obtain ⟨w, hw, -⟩ := andThen_eq_next hu
    rw [Visitor.seen, hbegin]
    dsimp only
    rw [hu, List.forall_mem_append]
    exact ⟨ih hw, ih' hrest⟩

/-- One part of a walk after another returns in the first part or in the second. -/
theorem andThen_eq_done {x : Exec (Iter σ ρ)} {f : σ → Exec (Iter σ ρ)} {r : ρ}
    (h : andThen x f = .ok (.done r)) :
    x = .ok (.done r) ∨ ∃ t, x = .ok (.next t) ∧ f t = .ok (.done r) := by
  obtain ⟨i, hi, h⟩ := Exec.bind_eq_ok.mp h
  cases i with
  | next t => exact .inr ⟨t, hi, h⟩
  | done r' =>
    cases h
    exact .inl hi

/-- A walk that does not return at the end of a node returns at the last property that it comes to. -/
theorem seen_of_done (hend : ∀ s r, v.endNode s ≠ .ok (.done r)) {items : Items} {s : σ} {r : ρ}
    (h : v.fold items s = .ok (.done r)) :
    ∃ log x, v.seen items s = log ++ [x] ∧ v.prop x.name x.value x.before = .ok (.done r) ∧
      ∀ y ∈ log, v.Passes y := by
  induction items generalizing s with
  | nil => cases h
  | prop name value rest ih =>
    rw [Visitor.seen]
    rcases andThen_eq_done h with hprop | ⟨t, hprop, hrest⟩
    · rw [hprop]
      exact ⟨[], ⟨name, value, s⟩, rfl, hprop, List.forall_mem_nil _⟩
    · obtain ⟨log, x, hseen, hx, hlog⟩ := ih hrest
      rw [hprop]
      refine ⟨⟨name, value, s⟩ :: log, x, congrArg _ hseen, hx, ?_⟩
      exact List.forall_mem_cons.mpr ⟨⟨t, hprop⟩, hlog⟩
  | node name items rest ih ih' =>
    obtain ⟨t, hbegin, h⟩ := Exec.bind_eq_ok.mp h
    rw [Visitor.seen, hbegin]
    dsimp only
    rcases andThen_eq_done h with hchild | ⟨u, hu, hrest⟩
    · -- in the child
      rw [hchild]
      rcases andThen_eq_done hchild with hitems | ⟨w, -, hdone⟩
      · obtain ⟨log, x, hseen, hx, hlog⟩ := ih hitems
        exact ⟨log, x, (List.append_nil _).trans hseen, hx, hlog⟩
      · exact absurd hdone (hend w r)
    · -- after it
      obtain ⟨w, hw, -⟩ := andThen_eq_next hu
      obtain ⟨log, x, hseen, hx, hlog⟩ := ih' hrest
      rw [hu]
      refine ⟨v.seen items t ++ log, x, ?_, hx, ?_⟩
      · show v.seen items t ++ v.seen rest u = _
        rw [hseen, List.append_assoc]
      · exact List.forall_mem_append.mpr ⟨passes_of_next hw, hlog⟩

/-- So it does over a blob of a device tree, where the end of the blob gives something else. -/
theorem examined_of_walk (hkeeps : v.Keeps I) (hend : ∀ s r, v.endNode s ≠ .ok (.done r)) {b : Blob}
    {root : Bytes} {items : Items} (hflat : Flattens b root items) {s : σ} (hs : I s) {r : ρ}
    (hfinish : ∀ s, v.finish s ≠ r) (h : walk b v s = .ok r) :
    ∃ log x, examined b v s = log ++ [x] ∧ v.prop x.name x.value x.before = .ok (.done r) ∧
      ∀ y ∈ log, v.Passes y := by
  rw [walk_flattens hflat] at h
  obtain ⟨i, hi, h⟩ := Exec.bind_eq_ok.mp h
  rw [(examined_eq hkeeps hflat hs).2]
  cases i with
  | next t => exact absurd (Except.ok.inj h) (hfinish t)
  | done r' =>
    cases h
    exact seen_of_done hend hi

end Traced

end Ralix.Dtb
