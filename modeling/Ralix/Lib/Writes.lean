import Mathlib.Algebra.Ring.Nat
import Mathlib.Data.List.Induction
import Mathlib.Data.List.Nodup
import Mathlib.Logic.Function.Basic
import Mathlib.Tactic.Common

/-!
# Maps that are written to

A map from keys to values, after a list of writes in order. The last write to a key is the one that
counts, whatever was written before: `applyWrites_of_mem` is how one reasons about overlapping
writes without following their order, and `applyWrites_append_of_mem` drops all that came before.
`fillWords` is a loop that stores one word after another, and its lemmas are about any part of the loop.
-/

namespace Ralix.Lib

variable {κ α : Type} [DecidableEq κ] {m : κ → α} {ws ws' : List (κ × α)} {k : κ}

/-- The map after the writes. -/
def applyWrites (m : κ → α) (ws : List (κ × α)) : κ → α :=
  ws.foldl (fun m w => Function.update m w.1 w.2) m

/-- Writes after writes. -/
theorem applyWrites_append (m : κ → α) (ws ws' : List (κ × α)) :
    applyWrites m (ws ++ ws') = applyWrites (applyWrites m ws) ws' := List.foldl_append

/-- One more write. -/
theorem applyWrites_concat (m : κ → α) (ws : List (κ × α)) (w : κ × α) :
    applyWrites m (ws ++ [w]) = Function.update (applyWrites m ws) w.1 w.2 :=
  applyWrites_append m ws [w]

/-- A key that is not written keeps its value. -/
theorem applyWrites_of_notMem (h : k ∉ ws.map Prod.fst) : applyWrites m ws k = m k := by
  induction ws using List.reverseRecOn with
  | nil => rfl
  | append_singleton ws w ih =>
    rw [List.map_append, List.mem_append, not_or] at h
    have hne : k ≠ w.1 := fun he => h.2 (by simp [he])
    rw [applyWrites_concat, Function.update_of_ne hne]
    exact ih h.1

/-- A key that is written has a value that was written to it. -/
theorem applyWrites_of_mem (h : k ∈ ws.map Prod.fst) : (k, applyWrites m ws k) ∈ ws := by
  induction ws using List.reverseRecOn with
  | nil => cases h
  | append_singleton ws w ih =>
    rw [applyWrites_concat]
    by_cases hw : k = w.1
    · subst hw
      rw [Function.update_self]
      exact List.mem_append_right _ List.mem_cons_self
    · rw [Function.update_of_ne hw]
      rw [List.map_append, List.mem_append] at h
      refine List.mem_append_left _ (ih (h.resolve_right fun hm => hw ?_))
      simpa using hm

/-- A key that is written once has the value that was written to it. -/
theorem applyWrites_of_mem_nodup {a : α} (hnodup : (ws.map Prod.fst).Nodup) (h : (k, a) ∈ ws) :
    applyWrites m ws k = a := by
  have hmem := applyWrites_of_mem (m := m) (List.mem_map_of_mem (f := Prod.fst) h)
  exact congrArg Prod.snd (List.inj_on_of_nodup_map hnodup hmem h rfl)

/-- A key that later writes touch does not depend on earlier ones. -/
theorem applyWrites_append_of_mem (h : k ∈ ws'.map Prod.fst) :
    (k, applyWrites m (ws ++ ws') k) ∈ ws' := by
  rw [applyWrites_append]
  exact applyWrites_of_mem h

/-! ## Loops that store words -/

/-- The stores of a loop to `n` doublewords from an address on. -/
def fillWords (base n : ℕ) (f : ℕ → α) : List (ℕ × α) :=
  (List.range n).map fun i => (base + 8 * i, f i)

section Fill

variable {mem : ℕ → α} {base n addr i : ℕ} {f : ℕ → α}

@[simp] theorem length_fillWords : (fillWords base n f).length = n := by simp [fillWords]

/-- The first stores of a loop are those of a shorter one. -/
theorem take_fillWords (k : ℕ) : (fillWords base n f).take k = fillWords base (min k n) f := by
  rw [fillWords, ← List.map_take, List.take_range]
  rfl

/-- A word that a loop has come past. -/
theorem applyWrites_fillWords (hi : i < n) :
    applyWrites mem (fillWords base n f) (base + 8 * i) = f i := by
  have hkeys : ((fillWords base n f).map Prod.fst).Nodup := by
    rw [fillWords, List.map_map]
    refine List.Nodup.map (fun a b hab => ?_) List.nodup_range
    simp only [Function.comp_apply] at hab
    omega
  exact applyWrites_of_mem_nodup hkeys (List.mem_map.mpr ⟨i, List.mem_range.mpr hi, rfl⟩)

/-- A word that is not one of the loop's. -/
theorem applyWrites_fillWords_of_ne (h : ∀ i < n, addr ≠ base + 8 * i) :
    applyWrites mem (fillWords base n f) addr = mem addr := by
  refine applyWrites_of_notMem fun hmem => ?_
  rw [fillWords, List.map_map, List.mem_map] at hmem
  obtain ⟨i, hi, heq⟩ := hmem
  exact h i (List.mem_range.mp hi) heq.symm

/-- A word of a table, of which a loop has stored the first ones. -/
theorem applyWrites_fillWords_eq (mem : ℕ → α) (base n i : ℕ) (f : ℕ → α) :
    applyWrites mem (fillWords base n f) (base + 8 * i) = if i < n then f i else mem (base + 8 * i) := by
  split
  · rename_i hi
    exact applyWrites_fillWords hi
  · rename_i hi
    exact applyWrites_fillWords_of_ne fun j hj => by omega

end Fill

end Ralix.Lib
