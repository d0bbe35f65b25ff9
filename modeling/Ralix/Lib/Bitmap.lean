import Mathlib.Algebra.Ring.Nat
import Mathlib.Data.Finset.Basic
import Mathlib.Data.Finset.Range
import Mathlib.Tactic.Common

/-!
# Bitmaps

A list of words of `w` bits as a set: bit `i` is bit `i % w` of word `i / w`. `zeros` is the set of
the clear bits. Setting a bit takes it out of `zeros`, clearing a bit puts it in, and a bitmap of
known length is determined by its `zeros`. A bit past the end counts as set.
-/

namespace Ralix.Lib.Bitmap

variable {w : ℕ}

/-- The value of a bit. -/
def bit (bm : List (BitVec w)) (i : ℕ) : Bool :=
  match bm[i / w]? with
  | some word => word.getLsbD (i % w)
  | none => true

/-- The clear bits. -/
def zeros (bm : List (BitVec w)) : Finset ℕ :=
  (Finset.range (w * bm.length)).filter fun i => bit bm i = false

/-- A word with a bit set. -/
def setIn (word : BitVec w) (i : ℕ) : BitVec w := word ||| 1#w <<< i

/-- A word with a bit cleared. -/
def clearIn (word : BitVec w) (i : ℕ) : BitVec w := word &&& ~~~(1#w <<< i)

/-- The word of a bit that the bitmap has. -/
theorem div_lt_length {bm : List (BitVec w)} {i : ℕ} (h : i < w * bm.length) :
    i / w < bm.length :=
  Nat.div_lt_of_lt_mul h

/-- Bits of one word at one position are the same. -/
theorem eq_of_div_mod {i j : ℕ} (hd : i / w = j / w) (hm : i % w = j % w) : i = j := by
  rw [← Nat.div_add_mod i w, ← Nat.div_add_mod j w, hd, hm]

/-- In one word, the same bit is the same number. -/
theorem decide_mod_eq {i j : ℕ} (hd : i / w = j / w) : decide (i % w = j % w) = decide (i = j) := by
  rw [decide_eq_decide]
  exact ⟨eq_of_div_mod hd, fun e => by rw [e]⟩

variable [NeZero w]

/-- A clear bit is one that the bitmap has, and that is not set. -/
theorem mem_zeros {bm : List (BitVec w)} {i : ℕ} : i ∈ zeros bm ↔ bit bm i = false := by
  simp only [zeros, Finset.mem_filter, Finset.mem_range, and_iff_right_iff_imp]
  intro hbit
  by_contra hlt
  have hlen : bm.length ≤ i / w :=
    (Nat.le_div_iff_mul_le (Nat.pos_of_neZero w)).mpr (by rw [Nat.mul_comm]; omega)
  simp [bit, List.getElem?_eq_none hlen] at hbit

/-- The bit at a position of a shifted one. -/
theorem getLsbD_one_shiftLeft {i j : ℕ} (hi : i < w) :
    (1#w <<< i).getLsbD j = decide (i = j) := by
  rw [BitVec.getLsbD_shiftLeft, BitVec.getLsbD_one]
  by_cases hij : i = j
  · subst hij
    simp [hi, Nat.pos_of_neZero w]
  · have hne : ¬ (i ≤ j ∧ j - i = 0) := by omega
    simp only [hij, decide_false]
    by_cases hle : i ≤ j
    · have : j - i ≠ 0 := by omega
      simp [this]
    · simp [hle]

/-- Setting a bit sets that bit. -/
theorem bit_set {bm : List (BitVec w)} {i : ℕ} {word : BitVec w}
    (hw : bm[i / w]? = some word) (j : ℕ) :
    bit (bm.set (i / w) (setIn word (i % w))) j = (decide (i = j) || bit bm j) := by
  have hlt : i % w < w := Nat.mod_lt _ (Nat.pos_of_neZero w)
  have hlen : i / w < bm.length := (List.getElem?_eq_some_iff.mp hw).1
  unfold bit
  by_cases hd : i / w = j / w
  · rw [← hd, List.getElem?_set_self hlen, hw]
    simp only [setIn, BitVec.getLsbD_or, getLsbD_one_shiftLeft hlt, decide_mod_eq hd, Bool.or_comm]
  · have hne : i ≠ j := fun e => hd (by rw [e])
    rw [List.getElem?_set_ne hd]
    simp [hne]

/-- Clearing a bit clears that bit. -/
theorem bit_clear {bm : List (BitVec w)} {i : ℕ} {word : BitVec w}
    (hw : bm[i / w]? = some word) (j : ℕ) :
    bit (bm.set (i / w) (clearIn word (i % w))) j = (!decide (i = j) && bit bm j) := by
  have hlt : i % w < w := Nat.mod_lt _ (Nat.pos_of_neZero w)
  have hlt' : j % w < w := Nat.mod_lt _ (Nat.pos_of_neZero w)
  have hlen : i / w < bm.length := (List.getElem?_eq_some_iff.mp hw).1
  unfold bit
  by_cases hd : i / w = j / w
  · rw [← hd, List.getElem?_set_self hlen, hw]
    simp only [clearIn, BitVec.getLsbD_and, BitVec.getLsbD_not, getLsbD_one_shiftLeft hlt,
      decide_mod_eq hd, hlt', decide_true, Bool.true_and, Bool.and_comm]
  · have hne : i ≠ j := fun e => hd (by rw [e])
    rw [List.getElem?_set_ne hd]
    simp [hne]

/-- Setting a bit takes it out of the clear ones. -/
theorem zeros_set {bm : List (BitVec w)} {i : ℕ} {word : BitVec w}
    (hw : bm[i / w]? = some word) :
    zeros (bm.set (i / w) (setIn word (i % w))) = (zeros bm).erase i := by
  ext j
  rw [mem_zeros, bit_set hw, Finset.mem_erase, mem_zeros, Bool.or_eq_false_iff,
    decide_eq_false_iff_not, ne_comm]

/-- Clearing a bit puts it among the clear ones. -/
theorem zeros_clear {bm : List (BitVec w)} {i : ℕ} {word : BitVec w}
    (hw : bm[i / w]? = some word) :
    zeros (bm.set (i / w) (clearIn word (i % w))) = insert i (zeros bm) := by
  ext j
  rw [mem_zeros, bit_clear hw, Finset.mem_insert, mem_zeros, Bool.and_eq_false_iff,
    Bool.not_eq_false', decide_eq_true_eq, eq_comm]

/-- A bitmap of words with all bits set has no clear bits. -/
theorem zeros_replicate (n : ℕ) : zeros (List.replicate n (BitVec.allOnes w)) = ∅ := by
  apply Finset.eq_empty_of_forall_notMem
  intro i
  rw [mem_zeros, bit, List.getElem?_replicate]
  split
  · rename_i word hword
    split at hword
    · cases hword
      simp [Nat.mod_lt _ (Nat.pos_of_neZero w)]
    · cases hword
  · simp

/-- Bitmaps of one length with the same clear bits are the same. -/
theorem ext_zeros {bm bm' : List (BitVec w)} (hlen : bm.length = bm'.length)
    (h : zeros bm = zeros bm') : bm = bm' := by
  have hbit : ∀ i, bit bm i = bit bm' i := by
    intro i
    have hi : i ∈ zeros bm ↔ i ∈ zeros bm' := by rw [h]
    rw [mem_zeros, mem_zeros] at hi
    exact Bool.eq_iff_iff.mpr (by simpa using not_congr hi)
  apply List.ext_getElem hlen
  intro n hn hn'
  apply BitVec.eq_of_getLsbD_eq
  intro j hj
  have hdiv : (w * n + j) / w = n := by
    rw [Nat.mul_add_div (Nat.pos_of_neZero w), Nat.div_eq_of_lt hj, Nat.add_zero]
  have hmod : (w * n + j) % w = j := by
    rw [Nat.mul_add_mod, Nat.mod_eq_of_lt hj]
  have := hbit (w * n + j)
  simpa [bit, hdiv, hmod, List.getElem?_eq_getElem hn, List.getElem?_eq_getElem hn'] using this

end Ralix.Lib.Bitmap
