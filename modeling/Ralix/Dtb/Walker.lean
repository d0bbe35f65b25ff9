import Ralix.Dtb.Blob
import Ralix.Lib.Loop

/-!
# Walks over a struct block

The five functions of `src/mm/dtb.rs` that read a blob have the same loop over the tokens of the
struct block, and differ in what they do at a node's beginning, at its end, and at a property. The
loop is `step` here, and what a function does is a `Visitor`. An iteration advances the offset by
four bytes at least, so the loop is over after finitely many (`walker`).

`step_ok` says what the loop itself needs to be safe: nothing. It stops with a panic only where the
visitor does. `walk_ok_iff` is the same for whole walks, for a visitor that can panic at properties
only.
-/

namespace Ralix.Dtb

open Lib

/-- What a function does at the tokens. `finish` is what it returns after the loop. -/
structure Visitor (σ ρ : Type) where
  beginNode : Bytes → σ → Exec σ
  endNode : σ → Exec (Iter σ ρ)
  prop : Bytes → Bytes → σ → Exec (Iter σ ρ)
  finish : σ → ρ

/-- The state of the loop: `offset`, and the function's own variables. -/
structure Cursor (σ : Type) where
  offset : ℕ
  state : σ

section Step

variable {σ ρ : Type}

/-- The `FDT_BEGIN_NODE` branch, after the token. -/
def beginNodeAt (b : Blob) (v : Visitor σ ρ) (offset : ℕ) (s : σ) : Exec (Iter (Cursor σ) ρ) := do
  let stop ← scanNul b.structBlock (b.structBlock.length - offset) offset
  let name ← slice b.structBlock offset stop
  let s ← v.beginNode name s
  return .next ⟨align4 (stop + 1), s⟩

/-- What follows an iteration that has left the loop or goes on at `offset`. -/
def goOn (offset : ℕ) : Iter σ ρ → Iter (Cursor σ) ρ
  | .next s => .next ⟨offset, s⟩
  | .done r => .done r

/-- The `FDT_END_NODE` branch, after the token. -/
def endNodeAt (v : Visitor σ ρ) (offset : ℕ) (s : σ) : Exec (Iter (Cursor σ) ρ) := do
  return goOn offset (← v.endNode s)

/-- The length and the name offset of a property. -/
def propHeader (b : Blob) (offset : ℕ) : Exec (ℕ × ℕ) := do
  let len ← slice b.structBlock offset (offset + 4) >>= readBeU32
  let nameoff ← slice b.structBlock (offset + 4) (offset + 8) >>= readBeU32
  return (len.toNat, nameoff.toNat)

/-- The `FDT_PROP` branch, after the token. -/
def propAt (b : Blob) (v : Visitor σ ρ) (offset : ℕ) (s : σ) : Exec (Iter (Cursor σ) ρ) :=
  if offset + 8 > b.structBlock.length then .ok (.done (v.finish s))
  else do
    let (len, nameoff) ← propHeader b offset
    let offset := offset + 8
    if offset + len > b.structBlock.length then return .done (v.finish s)
    else
      let value ← slice b.structBlock offset (offset + len)
      let name ← getString b.stringsBlock nameoff
      return goOn (align4 (offset + len)) (← v.prop name value s)

/-- One iteration of the loop. -/
def step (b : Blob) (v : Visitor σ ρ) (c : Cursor σ) : Exec (Iter (Cursor σ) ρ) :=
  if c.offset + 4 ≤ b.structBlock.length then do
    let token ← slice b.structBlock c.offset (c.offset + 4) >>= readBeU32
    let offset := c.offset + 4
    if token = fdtBeginNode then beginNodeAt b v offset c.state
    else if token = fdtEndNode then endNodeAt v offset c.state
    else if token = fdtProp then propAt b v offset c.state
    else if token = fdtNop then return .next ⟨offset, c.state⟩
    else return .done (v.finish c.state)
  else .ok (.done (v.finish c.state))

/-- An iteration that goes on at an offset goes on there. -/
theorem goOn_eq_next {offset : ℕ} {i : Iter σ ρ} {c : Cursor σ} (h : goOn offset i = .next c) :
    c.offset = offset := by
  cases i with
  | next s =>
    cases h
    rfl
  | done r => cases h

/-- Each iteration advances the offset. -/
theorem step_offset {b : Blob} {v : Visitor σ ρ} {c c' : Cursor σ} (h : step b v c = .ok (.next c')) :
    c.offset + 4 ≤ b.structBlock.length ∧ c.offset < c'.offset := by
  have hlt := b.struct_lt
  unfold step at h
  split at h
  case isFalse => cases h
  rename_i hle
  refine ⟨hle, ?_⟩
  obtain ⟨token, -, h⟩ := Exec.bind_eq_ok.mp h
  dsimp only at h
  split_ifs at h
  · obtain ⟨stop, hstop, h⟩ := Exec.bind_eq_ok.mp h
    obtain ⟨stop', hstop', hge, hlen⟩ :=
      scanNul_ok (show c.offset + 4 ≤ b.structBlock.length from hle)
    obtain rfl : stop' = stop := Except.ok.inj (hstop'.symm.trans hstop)
    obtain ⟨name, -, h⟩ := Exec.bind_eq_ok.mp h
    obtain ⟨s, -, h⟩ := Exec.bind_eq_ok.mp h
    cases h
    -- `align4` wraps at the end of the words; the block is too short for that
    show c.offset < align4 (stop' + 1)
    rw [align4_eq (by omega)]
    omega
  · obtain ⟨i, -, h⟩ := Exec.bind_eq_ok.mp h
    rw [Exec.pure_eq, Except.ok.injEq] at h
    rw [goOn_eq_next h]
    exact Nat.lt_add_of_pos_right (by decide)
  · unfold propAt at h
    split at h
    · cases h
    obtain ⟨⟨len, nameoff⟩, -, h⟩ := Exec.bind_eq_ok.mp h
    dsimp only at h
    split at h
    · cases h
    obtain ⟨value, -, h⟩ := Exec.bind_eq_ok.mp h
    obtain ⟨name, -, h⟩ := Exec.bind_eq_ok.mp h
    obtain ⟨i, -, h⟩ := Exec.bind_eq_ok.mp h
    rw [Exec.pure_eq, Except.ok.injEq] at h
    rw [goOn_eq_next h, align4_eq (by omega)]
    omega
  · cases h
    exact Nat.lt_add_of_pos_right (by decide)
  · cases h

/-- The loop over the tokens of a blob. -/
def walker (b : Blob) (v : Visitor σ ρ) : Loop Panic (Cursor σ) ρ where
  body := step b v
  measure c := b.structBlock.length - c.offset
  decreases := by
    intro c c' h
    have hoffset := step_offset h
    omega

/-- A function on a blob: its loop from the start of the struct block. -/
def walk (b : Blob) (v : Visitor σ ρ) (s : σ) : Exec ρ := (walker b v).run ⟨0, s⟩

/-! ## Safety -/

/-- At the offset there is a property that ends in the struct block. -/
def PropAt (b : Blob) (offset : ℕ) (name value : Bytes) : Prop :=
  offset + 4 ≤ b.structBlock.length ∧
    (slice b.structBlock offset (offset + 4) >>= readBeU32) = .ok fdtProp ∧
    offset + 12 ≤ b.structBlock.length ∧ ∃ len nameoff,
      propHeader b (offset + 4) = .ok (len, nameoff) ∧
      offset + 12 + len ≤ b.structBlock.length ∧
      slice b.structBlock (offset + 12) (offset + 12 + len) = .ok value ∧
      getString b.stringsBlock nameoff = .ok name

/-- A walk comes to a property, with the visitor's variables in this state. -/
def VisitsProp (b : Blob) (v : Visitor σ ρ) (s₀ : σ) (name value : Bytes) (s : σ) : Prop :=
  ∃ offset, (walker b v).Reaches ⟨0, s₀⟩ ⟨offset, s⟩ ∧ PropAt b offset name value

/-- A visitor that keeps an invariant, and does not stop at nodes. -/
structure Visitor.Keeps (v : Visitor σ ρ) (I : σ → Prop) : Prop where
  beginNode : ∀ {s} name, I s → ∃ s', v.beginNode name s = .ok s' ∧ I s'
  endNode : ∀ {s}, I s → ∃ i, v.endNode s = .ok i ∧ ∀ s', i = .next s' → I s'
  prop : ∀ {s name value s'}, I s → v.prop name value s = .ok (.next s') → I s'

/-- The beginning of a node keeps the invariant. -/
theorem Visitor.Keeps.inv_begin {v : Visitor σ ρ} {I : σ → Prop} (h : v.Keeps I) {s s' : σ} {name : Bytes}
    (hs : I s) (hbegin : v.beginNode name s = .ok s') : I s' := by
  obtain ⟨t, ht, hinv⟩ := h.beginNode name hs
  cases hbegin.symm.trans ht
  exact hinv

/-- So does the end of one. -/
theorem Visitor.Keeps.inv_end {v : Visitor σ ρ} {I : σ → Prop} (h : v.Keeps I) {s s' : σ} (hs : I s)
    (hend : v.endNode s = .ok (.next s')) : I s' := by
  obtain ⟨i, hi, hinv⟩ := h.endNode hs
  cases hend.symm.trans hi
  exact hinv s' rfl

/-- The header of a property in the struct block is read. -/
theorem propHeader_ok {b : Blob} {offset : ℕ} (h : offset + 8 ≤ b.structBlock.length) :
    ∃ len nameoff, propHeader b offset = .ok (len, nameoff) := by
  obtain ⟨len, hlen⟩ := slice_readBeU32_ok (show offset + 4 ≤ b.structBlock.length by omega)
  obtain ⟨nameoff, hname⟩ :=
    slice_readBeU32_ok (show offset + 4 + 4 ≤ b.structBlock.length by omega)
  refine ⟨len.toNat, nameoff.toNat, ?_⟩
  rw [propHeader, hlen, Exec.ok_bind]
  rw [show offset + 8 = offset + 4 + 4 by omega, hname, Exec.ok_bind, Exec.pure_eq]

variable {b : Blob} {v : Visitor σ ρ} {I : σ → Prop} {c : Cursor σ}

/-- The `FDT_BEGIN_NODE` branch returns. -/
theorem beginNodeAt_ok (hkeeps : v.Keeps I) {offset : ℕ} {s : σ}
    (h : offset ≤ b.structBlock.length) (hs : I s) :
    ∃ c', beginNodeAt b v offset s = .ok (.next c') ∧ I c'.state := by
  obtain ⟨stop, hstop, hge, hlen⟩ := scanNul_ok (show offset ≤ b.structBlock.length from h)
  have hname := slice_ok hge hlen
  obtain ⟨s', hs', hI⟩ := hkeeps.beginNode ((b.structBlock.drop offset).take (stop - offset)) hs
  refine ⟨⟨align4 (stop + 1), s'⟩, ?_, hI⟩
  rw [beginNodeAt, hstop, Exec.ok_bind, hname, Exec.ok_bind, hs', Exec.ok_bind, Exec.pure_eq]

/-- What goes on after an iteration keeps the invariant. -/
theorem goOn_inv {offset : ℕ} {i : Iter σ ρ} (h : ∀ s', i = .next s' → I s') {c' : Cursor σ}
    (hc : goOn offset i = .next c') : I c'.state := by
  cases i with
  | next s =>
    cases hc
    exact h s rfl
  | done r => cases hc

/-- The `FDT_END_NODE` branch returns. -/
theorem endNodeAt_ok (hkeeps : v.Keeps I) (offset : ℕ) {s : σ} (hs : I s) :
    ∃ i, endNodeAt v offset s = .ok i ∧ ∀ c', i = .next c' → I c'.state := by
  obtain ⟨i, hi, hI⟩ := hkeeps.endNode hs
  refine ⟨goOn offset i, ?_, fun c' hc' => goOn_inv hI hc'⟩
  rw [endNodeAt, hi, Exec.ok_bind, Exec.pure_eq]

/-- The `FDT_PROP` branch at a property that ends in the struct block is what the visitor does. -/
theorem propAt_eq {offset len nameoff : ℕ} {name value : Bytes} (s : σ)
    (hle : offset + 8 ≤ b.structBlock.length) (hheader : propHeader b offset = .ok (len, nameoff))
    (hend : offset + 8 + len ≤ b.structBlock.length)
    (hvalue : slice b.structBlock (offset + 8) (offset + 8 + len) = .ok value)
    (hname : getString b.stringsBlock nameoff = .ok name) :
    propAt b v offset s =
      (v.prop name value s >>= fun i => pure (goOn (align4 (offset + 8 + len)) i)) := by
  rw [propAt, if_neg (by omega), hheader, Exec.ok_bind]
  dsimp only
  rw [if_neg (by omega), hvalue, Exec.ok_bind, hname, Exec.ok_bind]

/-- The `FDT_PROP` branch leaves the loop, or comes to a property. -/
theorem propAt_cases (b : Blob) (v : Visitor σ ρ) (offset : ℕ) (s : σ) :
    propAt b v offset s = .ok (.done (v.finish s)) ∨
      ∃ len nameoff name value, offset + 8 ≤ b.structBlock.length ∧
        propHeader b offset = .ok (len, nameoff) ∧ offset + 8 + len ≤ b.structBlock.length ∧
        slice b.structBlock (offset + 8) (offset + 8 + len) = .ok value ∧
        getString b.stringsBlock nameoff = .ok name := by
  by_cases hle : offset + 8 ≤ b.structBlock.length
  · obtain ⟨len, nameoff, hheader⟩ := propHeader_ok hle
    by_cases hend : offset + 8 + len ≤ b.structBlock.length
    · obtain ⟨name, hname⟩ := getString_ok b.stringsBlock nameoff
      have hvalue := slice_ok (Nat.le_add_right (offset + 8) len) hend
      exact .inr ⟨len, nameoff, name, _, hle, hheader, hend, hvalue, hname⟩
    · left
      rw [propAt, if_neg (by omega), hheader, Exec.ok_bind]
      dsimp only
      rw [if_pos (by omega), Exec.pure_eq]
  · left
    rw [propAt, if_pos (by omega)]

/-- An iteration of a walk keeps the invariant. -/
theorem step_inv (hkeeps : v.Keeps I) {c' : Cursor σ} (hs : I c.state)
    (h : step b v c = .ok (.next c')) : I c'.state := by
  unfold step at h
  split at h
  case isFalse => cases h
  rename_i hle
  obtain ⟨token, -, h⟩ := Exec.bind_eq_ok.mp h
  dsimp only at h
  split_ifs at h
  · obtain ⟨c'', hc'', hI⟩ := beginNodeAt_ok (b := b) hkeeps hle hs
    rw [hc''] at h
    cases h
    exact hI
  · obtain ⟨i, hi, hI⟩ := endNodeAt_ok hkeeps (c.offset + 4) hs
    rw [hi] at h
    exact hI c' (Except.ok.inj h)
  · rcases propAt_cases b v (c.offset + 4) c.state with hdone | ⟨len, nameoff, name, value, h8, hheader,
      hend, hvalue, hname⟩
    · rw [hdone] at h
      cases h
    · rw [propAt_eq c.state h8 hheader hend hvalue hname] at h
      obtain ⟨i, hi, h⟩ := Exec.bind_eq_ok.mp h
      refine goOn_inv (fun s' hs' => ?_) (Except.ok.inj h)
      rw [hs'] at hi
      exact hkeeps.prop hs hi
  · cases h
    exact hs
  · cases h

/-- An iteration at a property is what the visitor does. -/
theorem step_propAt {name value : Bytes} (h : PropAt b c.offset name value) :
    ∃ offset, step b v c =
      (v.prop name value c.state >>= fun i => pure (goOn offset i)) := by
  obtain ⟨hle, htoken, h12, len, nameoff, hheader, hend, hvalue, hname⟩ := h
  refine ⟨align4 (c.offset + 4 + 8 + len), ?_⟩
  rw [step, if_pos hle, htoken, Exec.ok_bind]
  dsimp only
  rw [if_neg (by decide), if_neg (by decide), if_pos rfl]
  exact propAt_eq c.state (by omega) hheader (by omega) hvalue hname

/-- An iteration returns, unless it comes to a property at which the visitor stops. -/
theorem step_ok_iff (hkeeps : v.Keeps I) (hs : I c.state) :
    (∃ i, step b v c = .ok i) ↔
      ∀ name value, PropAt b c.offset name value → ∃ i, v.prop name value c.state = .ok i := by
  constructor
  · rintro ⟨i, hi⟩ name value hprop
    obtain ⟨offset, heq⟩ := step_propAt (v := v) hprop
    rw [heq] at hi
    obtain ⟨j, hj, -⟩ := Exec.bind_eq_ok.mp hi
    exact ⟨j, hj⟩
  · intro hprops
    by_cases hle : c.offset + 4 ≤ b.structBlock.length
    case neg => exact ⟨.done (v.finish c.state), by rw [step, if_neg hle]⟩
    obtain ⟨token, htoken⟩ := slice_readBeU32_ok hle
    rw [step, if_pos hle, htoken, Exec.ok_bind]
    dsimp only
    split_ifs with hbegin hend hprop hnop
    · obtain ⟨c', hc', -⟩ := beginNodeAt_ok (b := b) hkeeps hle hs
      exact ⟨_, hc'⟩
    · obtain ⟨i, hi, -⟩ := endNodeAt_ok hkeeps (c.offset + 4) hs
      exact ⟨i, hi⟩
    -- only a property can stop the walk, and only if it is read to its end
    · subst hprop
      rcases propAt_cases b v (c.offset + 4) c.state with hdone | ⟨len, nameoff, name, value, h8,
        hheader, hstop, hvalue, hname⟩
      · exact ⟨_, hdone⟩
      · obtain ⟨i, hi⟩ := hprops name value
          ⟨hle, htoken, h8, len, nameoff, hheader, hstop, hvalue, hname⟩
        rw [propAt_eq c.state h8 hheader hstop hvalue hname, hi]
        exact ⟨_, rfl⟩
    · exact ⟨_, rfl⟩
    · exact ⟨_, rfl⟩

/-- A walk returns exactly when the visitor does at every property that the walk comes to. -/
theorem walk_ok_iff (hkeeps : v.Keeps I) {s₀ : σ} (hs₀ : I s₀) :
    (∃ r, walk b v s₀ = .ok r) ↔
      ∀ name value s, VisitsProp b v s₀ name value s → ∃ i, v.prop name value s = .ok i := by
  have hinv : ∀ c, (walker b v).Reaches ⟨0, s₀⟩ c → I c.state := by
    intro c hc
    exact hc.inv (I := fun c => I c.state) (fun hs hstep => step_inv hkeeps hs hstep) hs₀
  rw [walk, Loop.run_ok_iff]
  constructor
  · rintro h name value s ⟨offset, hreach, hprop⟩
    exact (step_ok_iff hkeeps (hinv _ hreach)).mp (h _ hreach) name value hprop
  · intro h c hreach
    refine (step_ok_iff hkeeps (hinv _ hreach)).mpr fun name value hprop => ?_
    exact h name value c.state ⟨c.offset, hreach, hprop⟩

/-- A walk in which the visitor never stops returns. -/
theorem walk_ok (hkeeps : v.Keeps I) (hprop : ∀ name value s, I s → ∃ i, v.prop name value s = .ok i)
    {s₀ : σ} (hs₀ : I s₀) : ∃ r, walk b v s₀ = .ok r := by
  refine (walk_ok_iff hkeeps hs₀).mpr ?_
  rintro name value s ⟨offset, hreach, -⟩
  exact hprop name value s
    (hreach.inv (I := fun c => I c.state) (fun hs hstep => step_inv hkeeps hs hstep) hs₀)

/-- The invariant holds at every property that a walk comes to. -/
theorem VisitsProp.inv (hkeeps : v.Keeps I) {s₀ s : σ} (hs₀ : I s₀) {name value : Bytes}
    (h : VisitsProp b v s₀ name value s) : I s := by
  obtain ⟨offset, hreach, -⟩ := h
  exact hreach.inv (I := fun c => I c.state) (fun hs hstep => step_inv hkeeps hs hstep) hs₀

/-! ## Histories -/

/-- What a walk has done at a property: the visitor's variables before and after it. -/
structure Visit (σ : Type) where
  name : Bytes
  value : Bytes
  before : σ
  after : σ

/-- A visitor that also records what it does at the properties, in order. -/
def Visitor.logged (v : Visitor σ ρ) : Visitor (σ × List (Visit σ)) (ρ × List (Visit σ)) where
  beginNode name s := do
    return (← v.beginNode name s.1, s.2)
  endNode s := do
    match ← v.endNode s.1 with
    | .next t => return .next (t, s.2)
    | .done r => return .done (r, s.2)
  prop name value s := do
    match ← v.prop name value s.1 with
    | .next t => return .next (t, s.2 ++ [⟨name, value, s.1, t⟩])
    | .done r => return .done (r, s.2)
  finish s := (v.finish s.1, s.2)

/-- An iteration without the record. -/
def forget {τ : Type} : Iter (Cursor (σ × τ)) (ρ × τ) → Iter (Cursor σ) ρ
  | .next c => .next ⟨c.offset, c.state.1⟩
  | .done r => .done r.1

/-- The record does not change what an iteration does. -/
theorem step_logged (offset : ℕ) (s : σ) (log : List (Visit σ)) :
    step b v ⟨offset, s⟩ = (step b v.logged ⟨offset, (s, log)⟩).map forget := by
  -- both iterations read the same bytes, so they stop at the same read
  unfold step
  dsimp only
  split
  case isFalse => rfl
  cases slice b.structBlock offset (offset + 4) >>= readBeU32 with
  | error e => rfl
  | ok token =>
    rw [Exec.ok_bind, Exec.ok_bind]
    split_ifs
    · unfold beginNodeAt Visitor.logged
      cases scanNul b.structBlock (b.structBlock.length - (offset + 4)) (offset + 4) with
      | error e => rfl
      | ok stop =>
        rw [Exec.ok_bind, Exec.ok_bind]
        cases slice b.structBlock (offset + 4) stop with
        | error e => rfl
        | ok name =>
          rw [Exec.ok_bind, Exec.ok_bind]
          dsimp only
          cases v.beginNode name s with
          | error e => rfl
          | ok t => rfl
    · unfold endNodeAt Visitor.logged
      dsimp only
      cases v.endNode s with
      | error e => rfl
      | ok i =>
        cases i with
        | next t => rfl
        | done r => rfl
    · unfold propAt
      split
      · rfl
      cases propHeader b (offset + 4) with
      | error e => rfl
      | ok header =>
        rw [Exec.ok_bind, Exec.ok_bind]
        dsimp only
        split
        · rfl
        cases slice b.structBlock (offset + 4 + 8) (offset + 4 + 8 + header.1) with
        | error e => rfl
        | ok value =>
          rw [Exec.ok_bind, Exec.ok_bind]
          cases getString b.stringsBlock header.2 with
          | error e => rfl
          | ok name =>
            show _ = Except.map forget ((v.prop name value s >>= _) >>= _)
            rw [Exec.ok_bind]
            cases v.prop name value s with
            | error e => rfl
            | ok i =>
              cases i with
              | next t => rfl
              | done r => rfl
    · rfl
    · rfl

/-- A walk is the one of the visitor that records, without the record. -/
theorem walk_logged (s : σ) (log : List (Visit σ)) :
    walk b v s = (walk b v.logged (s, log)).map Prod.fst := by
  have hrun : ∀ n offset s log, b.structBlock.length - offset < n →
      (walker b v).run ⟨offset, s⟩ =
        ((walker b v.logged).run ⟨offset, (s, log)⟩).map Prod.fst := by
    intro n
    induction n with
    | zero => exact fun offset s log h => absurd h (Nat.not_lt_zero _)
    | succ n ih =>
      intro offset s log hn
      have hstep := step_logged (b := b) (v := v) offset s log
      match hbody : step b v.logged ⟨offset, (s, log)⟩ with
      | .error e =>
        rw [hbody] at hstep
        rw [(walker b v).run_error hstep, (walker b v.logged).run_error hbody]
        rfl
      | .ok (.done r) =>
        rw [hbody] at hstep
        rw [(walker b v).run_done hstep, (walker b v.logged).run_done hbody]
        rfl
      | .ok (.next c) =>
        rw [hbody] at hstep
        have hoffset := step_offset hbody
        rw [(walker b v).run_next hstep, (walker b v.logged).run_next hbody]
        exact ih c.offset c.state.1 c.state.2 (by dsimp only at hoffset; omega)
  exact hrun _ 0 s log (Nat.lt_succ_self _)

end Step

end Ralix.Dtb
