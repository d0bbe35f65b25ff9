import Mathlib.Algebra.Ring.Nat
import Mathlib.Tactic.Common

/-!
# Messages of tagged values

A message of 32-bit words: the number of its bytes, a code, tags, and a zero word. A tag is an
identifier, the number of the bytes of its value, a code, and the value. Whoever answers such a message
does so in place, and then each word of a value is where it was (`Message.getElem?_encode`).
-/

namespace Ralix.Lib

/-- A tag, and its value. -/
structure Tag where
  id : UInt32
  code : UInt32
  value : List UInt32
deriving DecidableEq

namespace Tag

/-- The identifier is none of the end of a message, and the size of the value is a word. -/
def Fits (t : Tag) : Prop := t.id ≠ 0 ∧ 4 * t.value.length < 2^32

/-- The words of a tag. -/
def encode (t : Tag) : List UInt32 :=
  [t.id, UInt32.ofNat (4 * t.value.length), t.code] ++ t.value

/-- Three words come before a value. -/
theorem length_encode (t : Tag) : t.encode.length = 3 + t.value.length := by
  rw [encode, List.length_append]
  rfl

end Tag

/-- A message. -/
structure Message where
  code : UInt32
  tags : List Tag
deriving DecidableEq

namespace Message

/-- The words of the tags, and of the end. -/
def encodeTags (ts : List Tag) : List UInt32 := ts.flatMap Tag.encode ++ [0]

/-- The words of a message. -/
def encode (m : Message) : List UInt32 :=
  [UInt32.ofNat (4 * (2 + (encodeTags m.tags).length)), m.code] ++ encodeTags m.tags

/-- The tags of the words up to the end, for so many tags at most. -/
def decodeTags : ℕ → List UInt32 → Option (List Tag)
  | n + 1, id :: words =>
    if id = 0 then some []
    else
      match words with
      | size :: code :: rest =>
        let len := size.toNat / 4
        if len ≤ rest.length then
          (decodeTags n (rest.drop len)).map (⟨id, code, rest.take len⟩ :: ·)
        else none
      | _ => none
  | _, _ => none

/-- The message of some words. -/
def decode : List UInt32 → Option Message
  | size :: code :: rest =>
    if size.toNat = 4 * (2 + rest.length) then (decodeTags rest.length rest).map (⟨code, ·⟩) else none
  | _ => none

/-- A message whose size is a word, and so are the sizes of its tags. -/
structure Fits (m : Message) : Prop where
  tags : ∀ t ∈ m.tags, t.Fits
  size : 4 * (2 + (encodeTags m.tags).length) < 2^32

/-! ## There and back -/

/-- The words of tags are the tags. -/
theorem decodeTags_encodeTags {ts : List Tag} (h : ∀ t ∈ ts, t.Fits) {n : ℕ} (hn : ts.length < n) :
    decodeTags n (encodeTags ts) = some ts := by
  induction ts generalizing n with
  | nil =>
    obtain ⟨k, rfl⟩ := Nat.exists_eq_add_of_lt hn
    rfl
  | cons t ts ih =>
    obtain ⟨⟨hid, hsize⟩, hts⟩ := List.forall_mem_cons.mp h
    obtain ⟨k, rfl⟩ : ∃ k, n = k + 1 := ⟨n - 1, by have := Nat.zero_lt_of_lt hn; omega⟩
    have hwords : encodeTags (t :: ts) =
        t.id :: UInt32.ofNat (4 * t.value.length) :: t.code :: (t.value ++ encodeTags ts) := by
      simp [encodeTags, Tag.encode]
    have hlen : (UInt32.ofNat (4 * t.value.length)).toNat / 4 = t.value.length := by
      rw [UInt32.toNat_ofNat', Nat.mod_eq_of_lt hsize]
      omega
    rw [hwords, decodeTags, if_neg hid]
    dsimp only
    rw [hlen, if_pos (by rw [List.length_append]; omega), List.drop_left, List.take_left,
      ih hts (Nat.lt_of_succ_lt_succ hn), Option.map_some]

/-- There are fewer tags than words. -/
theorem length_lt_encodeTags (ts : List Tag) : ts.length < (encodeTags ts).length := by
  induction ts with
  | nil => exact Nat.zero_lt_one
  | cons t ts ih =>
    have hcons : (encodeTags (t :: ts)).length = t.encode.length + (encodeTags ts).length := by
      simp [encodeTags]
    rw [hcons, Tag.length_encode, List.length_cons]
    omega

/-- The words of a message are the message. -/
theorem decode_encode {m : Message} (h : m.Fits) : decode m.encode = some m := by
  have hsize : (UInt32.ofNat (4 * (2 + (encodeTags m.tags).length))).toNat =
      4 * (2 + (encodeTags m.tags).length) := by
    rw [UInt32.toNat_ofNat', Nat.mod_eq_of_lt h.size]
  rw [encode, List.cons_append, List.cons_append, List.nil_append, decode, if_pos hsize,
    decodeTags_encodeTags h.tags (length_lt_encodeTags m.tags), Option.map_some]

/-! ## Answers -/

/-- The identifiers of the tags, and the lengths of their values. -/
def shape (m : Message) : List (UInt32 × ℕ) := m.tags.map fun t => (t.id, t.value.length)

/-- The words of a message before the value of its tag `k`. -/
def valueOffset (shape : List (UInt32 × ℕ)) (k : ℕ) : ℕ :=
  2 + ((shape.take k).map fun s => 3 + s.2).sum + 3

/-- A word of a value is where the shape says. -/
theorem getElem?_encode {m : Message} {k j : ℕ} {t : Tag} (ht : m.tags[k]? = some t)
    (hj : j < t.value.length) : m.encode[valueOffset m.shape k + j]? = t.value[j]? := by
  obtain ⟨code, tags⟩ := m
  have htags : ∀ (ts : List Tag) (k : ℕ), ts[k]? = some t →
      (encodeTags ts)[(((ts.map fun t => (t.id, t.value.length)).take k).map fun s => 3 + s.2).sum +
        3 + j]? = t.value[j]? := by
    intro ts
    induction ts with
    | nil => nofun
    | cons u us ih =>
      intro k hk
      have hcons : encodeTags (u :: us) = u.encode ++ encodeTags us := by
        rw [encodeTags, List.flatMap_cons, List.append_assoc]
        rfl
      rw [hcons]
      cases k with
      | zero =>
        obtain rfl : u = t := Option.some.inj hk
        rw [List.getElem?_append_left (by rw [Tag.length_encode]; simp; omega), Tag.encode]
        simp [Nat.add_comm 3 j]
      | succ k =>
        rw [List.getElem?_append_right (by rw [Tag.length_encode]; simp; omega), Tag.length_encode,
          ← ih k hk]
        congr 1
        simp
        omega
  have hwords : (Message.encode ⟨code, tags⟩)[2 + ((((Message.mk code tags).shape.take k).map
      fun s => 3 + s.2).sum + 3 + j)]? = t.value[j]? := by
    rw [encode, List.getElem?_append_right (by simp)]
    show (encodeTags tags)[2 + _ - 2]? = _
    rw [Nat.add_sub_cancel_left]
    exact htags tags k ht
  rw [valueOffset, ← hwords]
  congr 1
  omega

/-- A word of the value of the first tag with an identifier, or 0. -/
def word (m : Message) (id : UInt32) (j : ℕ) : UInt32 :=
  ((m.tags.find? fun t => t.id = id).bind fun t => t.value[j]?).getD 0

/-- A word of a value is found where the shape has the first tag with its identifier. -/
theorem getD_encode {m : Message} {k j : ℕ} {id : UInt32} {len : ℕ} (hk : m.shape[k]? = some (id, len))
    (hfirst : id ∉ (m.shape.take k).map Prod.fst) (hj : j < len) :
    m.encode.getD (valueOffset m.shape k + j) 0 = m.word id j := by
  rw [shape, List.getElem?_map, Option.map_eq_some_iff] at hk
  obtain ⟨t, ht, heq⟩ := hk
  obtain ⟨rfl, rfl⟩ := Prod.mk.inj heq
  have hfind : m.tags.find? (fun u => u.id = t.id) = some t := by
    rw [List.find?_eq_some_iff_getElem]
    obtain ⟨hlt, hget⟩ := List.getElem?_eq_some_iff.mp ht
    refine ⟨by simp, k, hlt, hget, fun i hi => ?_⟩
    have hne : m.tags[i].id ≠ t.id := by
      intro he
      refine hfirst (List.mem_map.mpr ⟨(m.tags[i].id, m.tags[i].value.length), ?_, he⟩)
      rw [shape, List.mem_take_iff_getElem]
      exact ⟨i, by simp; omega, by simp⟩
    simpa using hne
  rw [List.getD_eq_getElem?_getD, getElem?_encode ht hj, word, hfind, Option.bind_some]

end Message

end Ralix.Lib
