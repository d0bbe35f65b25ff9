import Mathlib.Data.List.Nodup

/-!
# Lists with distinct keys

A list of pairs in which no key occurs twice is a map written down in some order. A value is found by
its key in any order (`lookup_perm`), and a fold over the pairs has the same end in any order, if its
steps commute for different keys (`foldl_perm`).
-/

namespace Ralix.Lib

variable {κ α σ : Type} {l l' : List (κ × α)}

/-- The pair with a key is one of the pairs. -/
theorem lookup_eq_some_iff [BEq κ] [LawfulBEq κ] (hkeys : (l.map Prod.fst).Nodup) {k : κ} {v : α} :
    l.lookup k = some v ↔ (k, v) ∈ l := by
  induction l with
  | nil => simp
  | cons p rest ih =>
    rw [List.map_cons, List.nodup_cons] at hkeys
    rw [List.lookup_cons, List.mem_cons]
    by_cases hk : k = p.1
    · have hrest : (k, v) ∉ rest := fun hmem => hkeys.1 (hk ▸ List.mem_map_of_mem hmem)
      rw [beq_iff_eq.mpr hk, Option.some.injEq]
      constructor
      · rintro rfl
        exact .inl (Prod.ext hk rfl)
      · rintro (rfl | hmem)
        · rfl
        · exact absurd hmem hrest
    · rw [beq_eq_false_iff_ne.mpr hk, ih hkeys.2]
      exact ⟨.inr, fun hor => hor.resolve_left fun heq => hk (congrArg Prod.fst heq)⟩

/-- A value is found by its key in any order. -/
theorem lookup_perm [BEq κ] [LawfulBEq κ] (h : l.Perm l') (hkeys : (l.map Prod.fst).Nodup) (k : κ) :
    l.lookup k = l'.lookup k := by
  have hkeys' : (l'.map Prod.fst).Nodup := (h.map Prod.fst).nodup_iff.mp hkeys
  apply Option.ext
  intro v
  rw [lookup_eq_some_iff hkeys, lookup_eq_some_iff hkeys', h.mem_iff]

/-- A fold has the same end in any order, if its steps commute for different keys. -/
theorem foldl_perm {f : σ → κ × α → σ} (h : l.Perm l') (hkeys : (l.map Prod.fst).Nodup)
    (hcomm : ∀ s x y, x.1 ≠ y.1 → f (f s x) y = f (f s y) x) (s : σ) : l.foldl f s = l'.foldl f s := by
  apply h.foldl_eq'
  intro x hx y hy s
  by_cases hxy : x.1 = y.1
  · rw [List.inj_on_of_nodup_map hkeys hx hy hxy]
  · exact hcomm s x y hxy

end Ralix.Lib
