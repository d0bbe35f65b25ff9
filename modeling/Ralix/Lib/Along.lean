import Mathlib.Data.List.Forall2
import Mathlib.Tactic.Common

/-!
# A list that keeps to another as far as it goes

A run that stops early has a log that answers only to the first part of what there was to do.
`AlongPrefix R xs ys` says that the entries of `ys` are related, one by one and in order, to those of
`xs`, and that `ys` may end before `xs` does. What is to be said of the pairs is then a matter of the
entries of `xs` up to there (`AlongPrefix.forall_zip_iff`).
-/

namespace Ralix.Lib

variable {α β γ : Type} {R : α → β → Prop} {xs xs' : List α} {ys ys' : List β}

/-- Each entry of the second of two related lists is related to one of the first. -/
theorem exists_of_mem_right (h : List.Forall₂ R xs ys) {y : β} (hy : y ∈ ys) : ∃ x ∈ xs, R x y := by
  induction h with
  | nil => cases hy
  | @cons x y' xs ys hxy _ ih =>
    rcases List.mem_cons.mp hy with rfl | hy
    · exact ⟨x, List.mem_cons_self, hxy⟩
    · obtain ⟨x', hx', hrel⟩ := ih hy
      exact ⟨x', List.mem_cons_of_mem x hx', hrel⟩

/-- A list keeps to another one as far as it goes. -/
def AlongPrefix (R : α → β → Prop) (xs : List α) (ys : List β) : Prop :=
  ∃ zs, zs <+: xs ∧ List.Forall₂ R zs ys

namespace AlongPrefix

/-- One list after another. -/
theorem append (h : List.Forall₂ R xs ys) (h' : AlongPrefix R xs' ys') :
    AlongPrefix R (xs ++ xs') (ys ++ ys') := by
  obtain ⟨zs, hpre, hzs⟩ := h'
  exact ⟨xs ++ zs, (List.prefix_append_right_inj xs).mpr hpre, List.rel_append h hzs⟩

/-- It may end before more comes. -/
theorem extend (h : AlongPrefix R xs ys) (xs' : List α) : AlongPrefix R (xs ++ xs') ys := by
  obtain ⟨zs, hpre, hzs⟩ := h
  exact ⟨zs, hpre.trans (List.prefix_append xs xs'), hzs⟩

/-- A list that is related to another one keeps to it. -/
theorem of_forall₂ (h : List.Forall₂ R xs ys) : AlongPrefix R xs ys := ⟨xs, List.prefix_refl xs, h⟩

/-- What the relation implies is related as far. -/
theorem imp {S : α → β → Prop} (h : AlongPrefix R xs ys) (himp : ∀ x y, R x y → S x y) :
    AlongPrefix S xs ys := by
  obtain ⟨zs, hpre, hzs⟩ := h
  exact ⟨zs, hpre, hzs.imp himp⟩

/-- The entry of a list is related to that at the same index of the one that it keeps to. -/
theorem getElem (h : AlongPrefix R xs ys) {i : ℕ} {y : β} (hy : ys[i]? = some y) :
    ∃ x, xs[i]? = some x ∧ R x y := by
  obtain ⟨zs, ⟨more, rfl⟩, hzs⟩ := h
  obtain ⟨hi, rfl⟩ := List.getElem?_eq_some_iff.mp hy
  have hi' : i < zs.length := hzs.length_eq ▸ hi
  refine ⟨zs[i], ?_, hzs.get hi' hi⟩
  rw [List.getElem?_append_left hi', List.getElem?_eq_getElem hi']

/-- What is the same in related entries is the same as far as the list goes. -/
theorem map_prefix {f : α → γ} {g : β → γ} (h : AlongPrefix R xs ys) (heq : ∀ x y, R x y → g y = f x) :
    ys.map g <+: xs.map f := by
  obtain ⟨zs, hpre, hzs⟩ := h
  have hmap : ys.map g = zs.map f := by
    clear hpre
    induction hzs with
    | nil => rfl
    | cons hx _ ih => rw [List.map_cons, List.map_cons, ih, heq _ _ hx]
  rw [hmap]
  exact hpre.map f

/-- What holds of the pairs of related entries is what holds of the entries of the longer list. -/
theorem forall_zip_iff {P : α → β → Prop} {Q : α → Prop} (h : AlongPrefix R xs ys)
    (hiff : ∀ x ∈ xs, ∀ y, R x y → (P x y ↔ Q x)) :
    (∀ p ∈ xs.zip ys, P p.1 p.2) ↔ ∀ x ∈ xs.take ys.length, Q x := by
  obtain ⟨zs, ⟨more, rfl⟩, hzs⟩ := h
  rw [List.forall_mem_append] at hiff
  have hlen := hzs.length_eq
  have hzip : (zs ++ more).zip ys = zs.zip ys := by
    have happend : (zs ++ more).zip (ys ++ []) = zs.zip ys ++ more.zip [] := List.zip_append hlen
    rwa [List.append_nil, List.zip_nil_right, List.append_nil] at happend
  rw [← hlen, List.take_left, hzip]
  have hzs' := hiff.1
  clear hlen hzip hiff
  induction hzs with
  | nil => exact ⟨fun _ => List.forall_mem_nil _, fun _ => List.forall_mem_nil _⟩
  | cons hx _ ih =>
    rw [List.forall_mem_cons] at hzs'
    rw [List.zip_cons_cons, List.forall_mem_cons, List.forall_mem_cons]
    exact and_congr (hzs'.1 _ hx) (ih hzs'.2)

end AlongPrefix

end Ralix.Lib
