import Mathlib.Algebra.Ring.Nat
import Mathlib.Tactic.Common

/-!
# Computations that may stop

A function of the program that can panic is a function into `Exec`, whose errors say why the
program stops. Array accesses and slices go through `index` and `slice`, which stop on an index or
a range that the array does not have, so that "never out of bounds" is a statement about the result
of a function and not an assumption. The lemmas about `bind` take a computation that returned
apart, so that no proof has to unfold the monad.
-/

namespace Ralix.Lib

/-- Why a computation stops instead of returning. -/
inductive Panic where
  /-- An index, or an end of a slice, out of range. -/
  | bounds
  /-- An `expect` or `unwrap` of `None`. -/
  | expect
  /-- A `panic!`. -/
  | explicit
  /-- A loop that waits forever. -/
  | halt
  /-- A pointer dereferenced outside the objects it may point to. -/
  | pointer
deriving DecidableEq, Repr

/-- The computations that return an `α` or stop. -/
abbrev Exec (α : Type) := Except Panic α

namespace Exec

variable {α β : Type}

/-- A computation that returned ran both of its parts. -/
theorem bind_eq_ok {x : Exec α} {f : α → Exec β} {b : β} :
    (x >>= f) = .ok b ↔ ∃ a, x = .ok a ∧ f a = .ok b := by
  cases x with
  | error e => simp [bind, Except.bind]
  | ok a => simp [bind, Except.bind]

/-- The first part's result is passed on. -/
@[simp] theorem ok_bind (a : α) (f : α → Exec β) : ((Except.ok a : Exec α) >>= f) = f a := rfl

/-- `pure` returns. -/
@[simp] theorem pure_eq (a : α) : (pure a : Exec α) = .ok a := rfl

/-- A computation on a state for each of the `n` indices from `i`, in order. -/
def forRange {σ : Type} (f : ℕ → σ → Exec σ) : ℕ → ℕ → σ → Exec σ
  | _, 0, s => .ok s
  | i, n + 1, s => do
    let s ← f i s
    forRange f (i + 1) n s

/-- A loop over indices returns with what its steps keep. -/
theorem forRange_ok {σ : Type} {f : ℕ → σ → Exec σ} {P : ℕ → σ → Prop} {i n : ℕ} {s : σ}
    (h : P i s)
    (hstep : ∀ j s, i ≤ j → j < i + n → P j s → ∃ s', f j s = .ok s' ∧ P (j + 1) s') :
    ∃ s', forRange f i n s = .ok s' ∧ P (i + n) s' := by
  induction n generalizing i s with
  | zero => exact ⟨s, rfl, h⟩
  | succ n ih =>
    obtain ⟨s₁, hs₁, h₁⟩ := hstep i s (Nat.le_refl _) (by omega) h
    obtain ⟨s₂, hs₂, h₂⟩ := ih h₁ fun j s hij hjn => hstep j s (by omega) (by omega)
    refine ⟨s₂, ?_, ?_⟩
    · rw [forRange, hs₁, ok_bind, hs₂]
    · rwa [show i + (n + 1) = i + 1 + n by omega]

/-- A loop over indices is a fold over them. -/
theorem forRange_eq_foldlM {σ : Type} (f : ℕ → σ → Exec σ) (n : ℕ) (s : σ) :
    forRange f 0 n s = (List.range n).foldlM (fun s i => f i s) s := by
  have key : ∀ i s, forRange f i n s = (List.range' i n).foldlM (fun s i => f i s) s := by
    induction n with
    | zero => exact fun i s => rfl
    | succ n ih =>
      intro i s
      rw [forRange, List.range'_succ, List.foldlM_cons]
      exact bind_congr fun s => ih (i + 1) s
  rw [key, List.range_eq_range']

/-- A loop over indices that returned has kept what its steps keep when they return. -/
theorem forRange_inv {σ : Type} {f : ℕ → σ → Exec σ} {P : σ → Prop} {i n : ℕ} {s s' : σ}
    (h : forRange f i n s = .ok s') (hs : P s)
    (hstep : ∀ j s s', f j s = .ok s' → P s → P s') : P s' := by
  induction n generalizing i s with
  | zero =>
    cases h
    exact hs
  | succ n ih =>
    obtain ⟨s₁, hs₁, h⟩ := bind_eq_ok.mp h
    exact ih h (hstep i s s₁ hs₁ hs)

end Exec

/-- The entry of an array at an index. -/
def index {α : Type} (xs : List α) (i : ℕ) : Exec α :=
  match xs[i]? with
  | some x => .ok x
  | none => .error .bounds

/-- The slice of an array from `a` up to `b`. -/
def slice {α : Type} (xs : List α) (a b : ℕ) : Exec (List α) :=
  if a ≤ b ∧ b ≤ xs.length then .ok ((xs.drop a).take (b - a)) else .error .bounds

/-- An array with the entry at an index replaced. -/
def setIndex {α : Type} (xs : List α) (i : ℕ) (x : α) : Exec (List α) :=
  if i < xs.length then .ok (xs.set i x) else .error .bounds

section Arrays

variable {α : Type} {xs : List α}

/-- An access within the array returns its entry. -/
theorem index_ok {i : ℕ} (h : i < xs.length) : index xs i = .ok xs[i] := by
  simp [index, h]

/-- An access that returned was within the array. -/
theorem lt_of_index {i : ℕ} {x : α} (h : index xs i = .ok x) : i < xs.length := by
  by_contra hi
  rw [index, List.getElem?_eq_none (Nat.not_lt.mp hi)] at h
  cases h

/-- An access that returned read an entry. -/
theorem mem_of_index {i : ℕ} {x : α} (h : index xs i = .ok x) : x ∈ xs := by
  have hi := lt_of_index h
  rw [index_ok hi] at h
  cases h
  exact List.getElem_mem hi

/-- An entry that was read can be written back. -/
theorem set_of_index {i : ℕ} {x : α} (h : index xs i = .ok x) : xs.set i x = xs := by
  have hi := lt_of_index h
  rw [index_ok hi] at h
  cases h
  exact List.set_getElem_self hi

/-- A write within the array returns. -/
theorem setIndex_ok {i : ℕ} (h : i < xs.length) (x : α) : setIndex xs i x = .ok (xs.set i x) :=
  if_pos h

/-- A write that returned was within the array. -/
theorem setIndex_eq_ok {i : ℕ} {x : α} {ys : List α} (h : setIndex xs i x = .ok ys) :
    i < xs.length ∧ ys = xs.set i x := by
  unfold setIndex at h
  split at h
  · rename_i hi
    cases h
    exact ⟨hi, rfl⟩
  · cases h

/-- A write just after a part appends to the part. -/
theorem take_set_succ {i : ℕ} (h : i < xs.length) (x : α) :
    (xs.set i x).take (i + 1) = xs.take i ++ [x] := by
  rw [List.take_add_one, List.getElem?_set_self h, List.take_set_of_le (Nat.le_refl i)]
  rfl

/-- A slice within the array returns its entries. -/
theorem slice_ok {a b : ℕ} (hab : a ≤ b) (hb : b ≤ xs.length) :
    slice xs a b = .ok ((xs.drop a).take (b - a)) := if_pos ⟨hab, hb⟩

/-- A slice is what it is in the array put together around it. -/
theorem slice_append (pre ys post : List α) :
    slice (pre ++ ys ++ post) pre.length (pre.length + ys.length) = .ok ys := by
  rw [slice_ok (by omega) (by simp only [List.length_append]; omega), List.append_assoc,
    List.drop_left, Nat.add_sub_cancel_left, List.take_left]

/-- A slice that returned was within the array. -/
theorem slice_eq_ok {a b : ℕ} {ys : List α} (h : slice xs a b = .ok ys) :
    a ≤ b ∧ b ≤ xs.length ∧ ys = (xs.drop a).take (b - a) := by
  unfold slice at h
  split at h
  · rename_i hab
    cases h
    exact ⟨hab.1, hab.2, rfl⟩
  · cases h

end Arrays

end Ralix.Lib
