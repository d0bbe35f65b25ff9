import Mathlib.Data.List.Basic
import Mathlib.Tactic.Common

/-!
# Ranges with a kind

A list of half-open ranges, each with a kind, as a partial map from numbers to kinds. `Ordered`
lists run upwards without overlap, and a number is in at most one member of an `Apart` list. A list
`Paints` a partial map if each range lies where the map has the range's kind. The endpoints of a
sorted list cut the numbers into spans that no endpoint splits (`Gap`).
-/

namespace Ralix.Lib

/-- A half-open range of numbers, with a kind. -/
structure Extent (κ : Type*) where
  start : ℕ
  stop : ℕ
  kind : κ
deriving DecidableEq, Repr

namespace Extent

variable {κ : Type*}

/-- The number is in the range. -/
def Contains (r : Extent κ) (a : ℕ) : Prop := r.start ≤ a ∧ a < r.stop

instance (r : Extent κ) (a : ℕ) : Decidable (r.Contains a) :=
  inferInstanceAs (Decidable (_ ∧ _))

/-- The ranges run upwards, and none reaches into a later one. -/
def Ordered (l : List (Extent κ)) : Prop := l.Pairwise fun r s => r.stop ≤ s.start

/-- No number is in two of the ranges. -/
def Apart (l : List (Extent κ)) : Prop := l.Pairwise fun r s => ∀ a, r.Contains a → ¬ s.Contains a

/-- The map has the range's kind everywhere on each range. -/
def Paints (f : ℕ → Option κ) (l : List (Extent κ)) : Prop :=
  ∀ r ∈ l, ∀ a, r.Contains a → f a = some r.kind

/-- Ordered ranges are apart. -/
theorem Ordered.apart {l : List (Extent κ)} (h : Ordered l) : Apart l :=
  h.imp fun {r s} hrs a hr hs => by
    unfold Contains at hr hs
    omega

/-- A number that is in some range of an apart list is in exactly one. -/
theorem Apart.countP_eq_one {l : List (Extent κ)} (h : Apart l) {r : Extent κ} (hr : r ∈ l) {a : ℕ}
    (ha : r.Contains a) : l.countP (fun s => decide (s.Contains a)) = 1 := by
  induction l with
  | nil => cases hr
  | cons s l ih =>
    obtain ⟨hs, hl⟩ := List.pairwise_cons.mp h
    rcases List.mem_cons.mp hr with rfl | hr
    · have hzero : l.countP (fun s => decide (s.Contains a)) = 0 := by
        rw [List.countP_eq_zero]
        intro t ht
        simpa using hs t ht a ha
      rw [List.countP_cons_of_pos (by simpa using ha), hzero]
    · have hnot : ¬ s.Contains a := fun hsa => hs r hr a hsa ha
      rw [List.countP_cons_of_neg (by simpa using hnot)]
      exact ih hl hr

/-- In a list that runs upwards, a number is in one of the first `n` ranges exactly if it is in one at
all, and at most `n` of them begin at or below it. -/
theorem Ordered.mem_take_iff {l : List (Extent κ)} (h : Ordered l) (hne : ∀ r ∈ l, r.start < r.stop)
    (n a : ℕ) : (∃ r ∈ l.take n, r.Contains a) ↔
      (∃ r ∈ l, r.Contains a) ∧ l.countP (fun r => decide (r.start ≤ a)) ≤ n := by
  induction l generalizing n with
  | nil => simp
  | cons s l ih =>
    obtain ⟨hs, hl⟩ := List.pairwise_cons.mp h
    rw [List.forall_mem_cons] at hne
    cases n with
    | zero =>
      refine iff_of_false (by simp) fun ⟨⟨r, hr, ha⟩, hle⟩ => ?_
      have hpos := List.countP_pos_iff (p := fun r => decide (r.start ≤ a)).mpr
        ⟨r, hr, by simpa using ha.1⟩
      omega
    | succ n =>
      rw [List.take_succ_cons, List.exists_mem_cons_iff, List.exists_mem_cons_iff, ih hl hne.2]
      by_cases ha : s.Contains a
      · have hzero : l.countP (fun r => decide (r.start ≤ a)) = 0 := by
          rw [List.countP_eq_zero]
          intro r hr
          have hle := hs r hr
          have hlt := ha.2
          simp only [decide_eq_true_eq]
          omega
        rw [List.countP_cons_of_pos (by simpa using ha.1), hzero]
        exact iff_of_true (.inl ha) ⟨.inl ha, by omega⟩
      · simp only [ha, false_or]
        refine and_congr_right fun ⟨r, hr, hra⟩ => ?_
        -- The range that the number is in begins after `s`.
        have hle := hs r hr
        have hlo := hra.1
        rw [List.countP_cons_of_pos (by simp only [decide_eq_true_eq]; omega)]
        omega

/-- Two members of a pairwise related list are related one way or the other. -/
theorem rel_or_rel {α : Type*} {R : α → α → Prop} {l : List α} (h : l.Pairwise R) {a b : α}
    (ha : a ∈ l) (hb : b ∈ l) (hne : a ≠ b) : R a b ∨ R b a := by
  induction l with
  | nil => cases ha
  | cons c l ih =>
    obtain ⟨hc, hl⟩ := List.pairwise_cons.mp h
    rcases List.mem_cons.mp ha with hac | hal
    · rcases List.mem_cons.mp hb with hbc | hbl
      · exact absurd (hac.trans hbc.symm) hne
      · exact .inl (hac ▸ hc b hbl)
    · rcases List.mem_cons.mp hb with hbc | hbl
      · exact .inr (hbc ▸ hc a hal)
      · exact ih hl hal hbl

/-- The ranges of an apart list that contain one number are the same. -/
theorem Apart.eq_of_contains {l : List (Extent κ)} (h : Apart l) {r s : Extent κ} (hr : r ∈ l)
    (hs : s ∈ l) {a : ℕ} (hra : r.Contains a) (hsa : s.Contains a) : r = s := by
  by_contra hne
  rcases rel_or_rel h hr hs hne with hrs | hsr
  · exact hrs a hra hsa
  · exact hsr a hsa hra

/-- The endpoints of a list of ranges. -/
def endpoints (l : List (Extent κ)) : List ℕ := l.flatMap fun r => [r.start, r.stop]

/-- The endpoints of a range of the list are among the list's. -/
theorem mem_endpoints {l : List (Extent κ)} {r : Extent κ} (hr : r ∈ l) :
    r.start ∈ endpoints l ∧ r.stop ∈ endpoints l := by
  simp only [endpoints, List.mem_flatMap]
  exact ⟨⟨r, hr, by simp⟩, ⟨r, hr, by simp⟩⟩

/-- None of the numbers lies strictly between `s` and `e`. -/
def Gap (bs : List ℕ) (s e : ℕ) : Prop := ∀ b ∈ bs, b ≤ s ∨ e ≤ b

/-- A range that covers a number of a gap in the endpoints covers the gap. -/
theorem Gap.covers_iff {l : List (Extent κ)} {s e a : ℕ} (h : Gap (endpoints l) s e)
    (hs : s ≤ a) (he : a < e) {r : Extent κ} (hr : r ∈ l) :
    (r.start ≤ s ∧ e ≤ r.stop) ↔ (r.start ≤ a ∧ a + 1 ≤ r.stop) := by
  obtain ⟨hstart, hstop⟩ := mem_endpoints hr
  have h₁ := h _ hstart
  have h₂ := h _ hstop
  omega

/-- The first two of a sorted list have a gap between them, in a list whose other members come
before. -/
theorem gap_of_sorted {bs rest : List ℕ} {s e : ℕ} (h : (s :: e :: rest).Pairwise (· ≤ ·))
    (hbs : ∀ b ∈ bs, b ∈ s :: e :: rest ∨ ∀ x ∈ s :: e :: rest, b ≤ x) : Gap bs s e := by
  rw [List.pairwise_cons, List.pairwise_cons] at h
  intro b hb
  rcases hbs b hb with hb | hb
  · rcases List.mem_cons.mp hb with rfl | hb
    · exact .inl (Nat.le_refl _)
    · rcases List.mem_cons.mp hb with rfl | hb
      · exact .inr (Nat.le_refl _)
      · exact .inr (h.2.1 b hb)
  · exact .inl (hb s List.mem_cons_self)

end Extent

end Ralix.Lib
