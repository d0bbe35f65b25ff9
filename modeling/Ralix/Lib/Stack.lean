import Ralix.Lib.Exec

/-!
# A stack in an array

A stack in the first places of an array, with the number of its entries kept beside it. Popping only
lowers the number, so what was popped stays in the array until it is written over. `upTo xs n` is the
stack that this means, with the top first.
-/

namespace Ralix.Lib

variable {α : Type} {xs : List α} {n : ℕ}

/-- The stack in the first `n` places, the top first. -/
def upTo (xs : List α) (n : ℕ) : List α := (xs.take n).reverse

/-- It has `n` entries. -/
theorem length_upTo (h : n ≤ xs.length) : (upTo xs n).length = n := by
  rw [upTo, List.length_reverse, List.length_take, Nat.min_eq_left h]

/-- An empty stack has no entries. -/
theorem eq_zero_of_upTo (h : n ≤ xs.length) (hs : upTo xs n = []) : n = 0 := by
  rw [← length_upTo h, hs, List.length_nil]

/-- One more place is one more entry. -/
theorem upTo_succ (h : n < xs.length) : upTo xs (n + 1) = xs[n] :: upTo xs n := by
  rw [upTo, List.take_succ_eq_append_getElem h, List.reverse_append]
  rfl

/-- A stack with a place has a top. -/
theorem exists_top (hpos : 0 < n) (h : n ≤ xs.length) : ∃ x rest, upTo xs n = x :: rest := by
  obtain ⟨n, rfl⟩ := Nat.exists_eq_add_of_le' hpos
  exact ⟨_, _, upTo_succ h⟩

/-- An entry is pushed. -/
theorem upTo_push (h : n < xs.length) (x : α) : upTo (xs.set n x) (n + 1) = x :: upTo xs n := by
  rw [upTo, take_set_succ h, List.reverse_append]
  rfl

/-- The top is popped. -/
theorem upTo_pop (h : n ≤ xs.length) : upTo xs (n - 1) = (upTo xs n).tail := by
  cases n with
  | zero => rfl
  | succ n =>
    rw [upTo_succ h]
    rfl

/-- The top is replaced. -/
theorem upTo_setTop (hpos : 0 < n) (h : n ≤ xs.length) (x : α) :
    upTo (xs.set (n - 1) x) n = x :: (upTo xs n).tail := by
  obtain ⟨n, rfl⟩ := Nat.exists_eq_add_of_le' hpos
  rw [Nat.add_sub_cancel, upTo_push h, upTo_succ h, List.tail_cons]

/-- The top is at the last of the places. -/
theorem getElem?_top {x : α} {rest : List α} (h : n ≤ xs.length) (hs : upTo xs n = x :: rest) :
    xs[n - 1]? = some x := by
  cases n with
  | zero => cases hs
  | succ n =>
    rw [upTo_succ h, List.cons.injEq] at hs
    rw [Nat.add_sub_cancel, List.getElem?_eq_getElem h, hs.1]

/-- The top is read. -/
theorem index_top {x : α} {rest : List α} (h : n ≤ xs.length) (hs : upTo xs n = x :: rest) :
    index xs (n - 1) = .ok x := by
  rw [index, getElem?_top h hs]

/-- A stack that is not empty has a place. -/
theorem pos_of_upTo {x : α} {rest : List α} (hs : upTo xs n = x :: rest) : 0 < n := by
  cases n with
  | zero => cases hs
  | succ n => exact Nat.succ_pos n

end Ralix.Lib
