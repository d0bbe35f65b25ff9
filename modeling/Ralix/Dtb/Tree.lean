import Ralix.Dtb.Number
import Ralix.Dtb.Walker

/-!
# Device trees and their flattening

A device tree, as a node's properties and children in order, and the blobs that it may be flattened
to: tokens and their arguments in the struct block, padded to four bytes, with any number of
`FDT_NOP` before a token, and property names in the strings block (`Flat`, `Flattens`).

`Visitor.fold` is what a visitor does at the tokens of a tree, by recursion on the tree.
`walk_flattens` shows that a walk over a blob of a tree does just that. The induction is on the
flattening. Its invariant is that the cursor stands at a multiple of four with the flattening of what
is left in front of it. So what is to show of a function on trees is only about its visitor.
-/

namespace Ralix.Dtb

open Lib

/-! ## Flattening -/

/-- The properties and the children of a node, in order. -/
inductive Items where
  | nil
  | prop (name value : Bytes) (rest : Items)
  | node (name : Bytes) (items rest : Items)
deriving DecidableEq, Repr

/-- The number of levels below a node. -/
def Items.height : Items → ℕ
  | .nil => 0
  | .prop _ _ rest => rest.height
  | .node _ items rest => max (items.height + 1) rest.height

/-- A 32-bit number in the blob. -/
def be32 (x : UInt32) : Bytes :=
  [(x >>> 24).toUInt8, (x >>> 16).toUInt8, (x >>> 8).toUInt8, x.toUInt8]

/-- Some `FDT_NOP` tokens. -/
def nops (n : ℕ) : Bytes := (List.replicate n (be32 fdtNop)).flatten

/-- The bytes after `len` bytes up to a multiple of four. -/
structure Pads (len : ℕ) (pad : Bytes) : Prop where
  lt : pad.length < 4
  aligned : (len + pad.length) % 4 = 0

/-- The strings block has the string at an offset. -/
def StringAt (strings : Bytes) (offset : ℕ) (name : Bytes) : Prop :=
  0 ∉ name ∧ ∃ pre post, strings = pre ++ name ++ 0 :: post ∧ pre.length = offset

/-- The bytes are a flattening of the properties and children. -/
inductive Flat (strings : Bytes) : Items → Bytes → Prop
  | nil : Flat strings .nil []
  | prop {name value rest pad bytes} (n : ℕ) (nameoff : UInt32) :
    StringAt strings nameoff.toNat name → value.length < 2^32 → Pads value.length pad →
    Flat strings rest bytes →
    Flat strings (.prop name value rest)
      (nops n ++ be32 fdtProp ++ be32 (UInt32.ofNat value.length) ++ be32 nameoff ++ value ++ pad ++
        bytes)
  | node {name items rest pad bytes bytes'} (n m : ℕ) :
    0 ∉ name → Pads (name.length + 1) pad → Flat strings items bytes → Flat strings rest bytes' →
    Flat strings (.node name items rest)
      (nops n ++ be32 fdtBeginNode ++ name ++ [0] ++ pad ++ bytes ++ nops m ++ be32 fdtEndNode ++
        bytes')

/-- The blob is a flattening of the device tree whose root node has the name and the items. -/
def Flattens (b : Blob) (root : Bytes) (items : Items) : Prop :=
  ∃ bytes n trailing, Flat b.stringsBlock (.node root items .nil) bytes ∧
    b.structBlock = bytes ++ nops n ++ be32 fdtEnd ++ trailing

/-! ## Bytes -/

/-- `read_be_u32` reads what `be32` writes. -/
theorem readBeU32_be32 (x : UInt32) : readBeU32 (be32 x) = .ok x := by
  have hx := x.toNat_lt
  have h0 : ((x >>> 24).toUInt8).toNat = x.toNat / 2^24 := by
    rw [UInt32.toNat_toUInt8, UInt32.toNat_shiftRight]
    show x.toNat >>> 24 % 2^8 = _
    rw [Nat.shiftRight_eq_div_pow]
    omega
  have h1 : ((x >>> 16).toUInt8).toNat = x.toNat / 2^16 % 2^8 := by
    rw [UInt32.toNat_toUInt8, UInt32.toNat_shiftRight]
    show x.toNat >>> 16 % 2^8 = _
    rw [Nat.shiftRight_eq_div_pow]
  have h2 : ((x >>> 8).toUInt8).toNat = x.toNat / 2^8 % 2^8 := by
    rw [UInt32.toNat_toUInt8, UInt32.toNat_shiftRight]
    show x.toNat >>> 8 % 2^8 = _
    rw [Nat.shiftRight_eq_div_pow]
  have h3 : (x.toUInt8).toNat = x.toNat % 2^8 := UInt32.toNat_toUInt8 x
  show Except.ok _ = _
  congr 1
  rw [← UInt32.toNat_inj, be32_value, h0, h1, h2, h3]
  omega

@[simp] theorem length_be32 (x : UInt32) : (be32 x).length = 4 := rfl

@[simp] theorem length_nops (n : ℕ) : (nops n).length = 4 * n := by
  induction n with
  | zero => rfl
  | succ n ih =>
    rw [nops, List.replicate_succ, List.flatten_cons, List.length_append, length_be32]
    rw [nops] at ih
    omega

/-- Flattenings consist of whole words. -/
theorem Flat.length_mod {strings : Bytes} {items : Items} {bytes : Bytes}
    (h : Flat strings items bytes) : bytes.length % 4 = 0 := by
  induction h with
  | nil => rfl
  | prop n nameoff _ _ hpad _ ih =>
    have hmod := hpad.aligned
    simp only [List.length_append, length_nops, length_be32]
    omega
  | node n m _ hpad _ _ ih ih' =>
    have hmod := hpad.aligned
    simp only [List.length_append, length_nops, length_be32, List.length_singleton]
    omega

/-- Up to a NUL. -/
theorem takeWhile_nul {name : Bytes} (h : 0 ∉ name) (post : Bytes) :
    (name ++ 0 :: post).takeWhile (· ≠ 0) = name := by
  rw [List.takeWhile_append_of_pos, List.takeWhile_cons_of_neg (by simp), List.append_nil]
  intro b hb
  have hne : b ≠ 0 := fun he => h (he ▸ hb)
  simp [hne]

/-- The search for a NUL finds the end of a name. -/
theorem scanNul_name {name : Bytes} (h : 0 ∉ name) (pre post : Bytes) :
    scanNul (pre ++ name ++ 0 :: post) ((pre ++ name ++ 0 :: post).length - pre.length) pre.length =
      .ok (pre.length + name.length) := by
  rw [scanNul_eq (by simp only [List.length_append]; omega), List.append_assoc, List.drop_left,
    takeWhile_nul h]

/-- `get_string` finds the string at an offset. -/
theorem getString_of_stringAt {strings name : Bytes} {offset : ℕ} (h : StringAt strings offset name) :
    getString strings offset = .ok name := by
  obtain ⟨hnul, pre, post, rfl, rfl⟩ := h
  unfold getString
  rw [if_neg (by simp only [List.length_append, List.length_cons]; omega), scanNul_name hnul,
    Exec.ok_bind]
  exact slice_append pre name (0 :: post)

/-- The struct block has the bytes at an offset. -/
def Blob.At (b : Blob) (offset : ℕ) (bytes : Bytes) : Prop :=
  ∃ pre post, b.structBlock = pre ++ bytes ++ post ∧ pre.length = offset

namespace Blob.At

variable {b : Blob} {offset : ℕ} {bytes bytes' : Bytes}

/-- The parts of what the block has at an offset. -/
theorem append (h : b.At offset (bytes ++ bytes')) :
    b.At offset bytes ∧ b.At (offset + bytes.length) bytes' := by
  obtain ⟨pre, post, hblock, rfl⟩ := h
  refine ⟨⟨pre, bytes' ++ post, ?_, rfl⟩, ⟨pre ++ bytes, post, ?_, List.length_append⟩⟩
  · rw [hblock]
    simp only [List.append_assoc]
  · rw [hblock]
    simp only [List.append_assoc]

/-- What the block has at an offset ends in it. -/
theorem le (h : b.At offset bytes) : offset + bytes.length ≤ b.structBlock.length := by
  obtain ⟨pre, post, hblock, rfl⟩ := h
  rw [hblock, List.length_append, List.length_append]
  omega

/-- The slice at an offset. -/
theorem slice_eq (h : b.At offset bytes) :
    slice b.structBlock offset (offset + bytes.length) = .ok bytes := by
  obtain ⟨pre, post, hblock, rfl⟩ := h
  rw [hblock]
  exact slice_append pre bytes post

/-- The number at an offset. -/
theorem read {x : UInt32} (h : b.At offset (be32 x)) :
    (slice b.structBlock offset (offset + 4) >>= readBeU32) = .ok x := by
  rw [show offset + 4 = offset + (be32 x).length from rfl, h.slice_eq, Exec.ok_bind, readBeU32_be32]

/-- The name at an offset ends at the NUL after it. -/
theorem scan {name : Bytes} (h : b.At offset (name ++ [0])) (hname : 0 ∉ name) :
    scanNul b.structBlock (b.structBlock.length - offset) offset = .ok (offset + name.length) := by
  obtain ⟨pre, post, hblock, rfl⟩ := h
  have heq : b.structBlock = pre ++ name ++ 0 :: post := by
    rw [hblock]
    simp only [List.append_assoc, List.singleton_append]
  rw [heq]
  exact scanNul_name hname pre post

end Blob.At

/-! ## A flattening of every tree -/

/-- Zeros up to a multiple of four. -/
def padding (len : ℕ) : Bytes := List.replicate ((4 - len % 4) % 4) 0

/-- They pad. -/
theorem pads_padding (len : ℕ) : Pads len (padding len) := by
  refine ⟨?_, ?_⟩
  · rw [padding, List.length_replicate]
    omega
  · rw [padding, List.length_replicate]
    omega

/-- A flattening without `FDT_NOP`, with the property names at given offsets. -/
def Items.encode (nameoff : Bytes → UInt32) : Items → Bytes
  | .nil => []
  | .prop name value rest =>
    nops 0 ++ be32 fdtProp ++ be32 (UInt32.ofNat value.length) ++ be32 (nameoff name) ++ value ++
      padding value.length ++ rest.encode nameoff
  | .node name items rest =>
    nops 0 ++ be32 fdtBeginNode ++ name ++ [0] ++ padding (name.length + 1) ++
      items.encode nameoff ++ nops 0 ++ be32 fdtEndNode ++ rest.encode nameoff

/-- The property names are at their offsets, the names have no NUL, and the values are short enough. -/
def Items.Encodable (strings : Bytes) (nameoff : Bytes → UInt32) : Items → Prop
  | .nil => True
  | .prop name value rest => (0 ∉ name ∧ value.length < 2^32 ∧
    (strings.drop (nameoff name).toNat).take (name.length + 1) = name ++ [0]) ∧
      rest.Encodable strings nameoff
  | .node name items rest =>
    0 ∉ name ∧ items.Encodable strings nameoff ∧ rest.Encodable strings nameoff

instance decidableEncodable (strings : Bytes) (nameoff : Bytes → UInt32) :
    (items : Items) → Decidable (items.Encodable strings nameoff)
  | .nil => inferInstanceAs (Decidable True)
  | .prop name value rest =>
    have := decidableEncodable strings nameoff rest
    inferInstanceAs (Decidable ((0 ∉ name ∧ value.length < 2^32 ∧
      (strings.drop (nameoff name).toNat).take (name.length + 1) = name ++ [0]) ∧
        rest.Encodable strings nameoff))
  | .node name items rest =>
    have := decidableEncodable strings nameoff items
    have := decidableEncodable strings nameoff rest
    inferInstanceAs (Decidable (0 ∉ name ∧ items.Encodable strings nameoff ∧
      rest.Encodable strings nameoff))

/-- A string with a NUL after it. -/
theorem stringAt_of_take {strings name : Bytes} {offset : ℕ} (hname : 0 ∉ name)
    (h : (strings.drop offset).take (name.length + 1) = name ++ [0]) :
    StringAt strings offset name := by
  have hlen := congrArg List.length h
  rw [List.length_take, List.length_drop, List.length_append, List.length_singleton] at hlen
  refine ⟨hname, strings.take offset, (strings.drop offset).drop (name.length + 1), ?_, ?_⟩
  · calc strings
        = strings.take offset ++ strings.drop offset := (List.take_append_drop offset strings).symm
      _ = strings.take offset ++ ((strings.drop offset).take (name.length + 1) ++
            (strings.drop offset).drop (name.length + 1)) := by
          rw [List.take_append_drop (name.length + 1), List.take_append_drop]
      _ = _ := by rw [h]; simp only [List.append_assoc, List.singleton_append]
  · rw [List.length_take]
    omega

/-- It is a flattening. -/
theorem flat_encode {strings : Bytes} {nameoff : Bytes → UInt32} {items : Items}
    (h : items.Encodable strings nameoff) : Flat strings items (items.encode nameoff) := by
  induction items with
  | nil => exact .nil
  | prop name value rest ih =>
    obtain ⟨⟨hname, hvalue, hstring⟩, hrest⟩ := h
    exact .prop 0 (nameoff name) (stringAt_of_take hname hstring) hvalue (pads_padding _) (ih hrest)
  | node name items rest ih ih' =>
    exact .node 0 0 h.1 (pads_padding _) (ih h.2.1) (ih' h.2.2)

/-- Where the strings block has a name first. -/
def nameoffIn (strings name : Bytes) : UInt32 :=
  UInt32.ofNat (((List.range strings.length).find? fun i =>
    (strings.drop i).take (name.length + 1) = name ++ [0]).getD 0)

/-- The struct block of a tree, without `FDT_NOP`. -/
def structBytes (strings root : Bytes) (items : Items) : Bytes :=
  (Items.node root items .nil).encode (nameoffIn strings) ++ nops 0 ++ be32 fdtEnd ++ []

/-- A blob with that struct block is a flattening of the tree. -/
theorem flattens_structBytes {b : Blob} {root : Bytes} {items : Items}
    (h : b.structBlock = structBytes b.stringsBlock root items)
    (hencodable : (Items.node root items .nil).Encodable b.stringsBlock (nameoffIn b.stringsBlock)) :
    Flattens b root items := ⟨_, 0, [], flat_encode hencodable, h⟩

/-! ## A blob in memory -/

/-- Bytes in memory from an address on. -/
def Memory.holding (base : ℕ) (bytes : Bytes) : Memory := fun addr => bytes.getD (addr - base) 0

/-- The words of a header for a blob, with the struct block right after it and the strings block after
that. -/
def Blob.headerWords (b : Blob) : List UInt32 :=
  [fdtMagic, b.totalSize, 40, UInt32.ofNat (40 + b.structBlock.length), 0, 0, 0, 0,
    UInt32.ofNat b.stringsBlock.length, UInt32.ofNat b.structBlock.length]

/-- The header. -/
def Blob.header (b : Blob) : Bytes := b.headerWords.flatMap be32

/-- The bytes of a blob. -/
def Blob.bytes (b : Blob) : Bytes := b.header ++ b.structBlock ++ b.stringsBlock

/-- A part of memory is what it holds there. -/
theorem Memory.bytes_holding (base : ℕ) (pre mid post : Bytes) :
    (holding base (pre ++ mid ++ post)).bytes (base + pre.length) mid.length = mid := by
  refine List.ext_getElem (Memory.length_bytes _ _ _) fun i hi hi' => ?_
  simp only [bytes, holding, List.getElem_map, List.getElem_range]
  rw [show base + pre.length + i - base = pre.length + i by omega, List.append_assoc,
    List.getD_append_right _ _ _ _ (by omega), Nat.add_sub_cancel_left, List.getD_append _ _ _ _ hi',
    List.getD_eq_getElem _ _ hi']

/-- Words take four bytes each. -/
theorem length_words (words : List UInt32) : (words.flatMap be32).length = 4 * words.length := by
  induction words with
  | nil => rfl
  | cons w ws ih =>
    rw [List.flatMap_cons, List.length_append, length_be32, ih, List.length_cons]
    omega

/-- A word is read. -/
theorem read_words {words : List UInt32} {i : ℕ} {x : UInt32} (h : words[i]? = some x) :
    (slice (words.flatMap be32) (4 * i) (4 * i + 4) >>= readBeU32) = .ok x := by
  obtain ⟨hi, hx⟩ := List.getElem?_eq_some_iff.mp h
  have hsplit : words.flatMap be32 =
      (words.take i).flatMap be32 ++ be32 x ++ (words.drop (i + 1)).flatMap be32 := by
    conv_lhs => rw [← List.take_append_drop i words, List.drop_eq_getElem_cons hi, hx]
    rw [List.flatMap_append, List.flatMap_cons, List.append_assoc]
  have hlen : ((words.take i).flatMap be32).length = 4 * i := by
    rw [length_words, List.length_take, Nat.min_eq_left (Nat.le_of_lt hi)]
  have hslice := slice_append ((words.take i).flatMap be32) (be32 x)
    ((words.drop (i + 1)).flatMap be32)
  rw [hlen, length_be32] at hslice
  rw [hsplit, hslice, Exec.ok_bind, readBeU32_be32]

/-- The header of a blob in memory is read, and gives the blob. -/
theorem readHeader_holding (base : ℕ) (b : Blob) (h : 40 + b.structBlock.length < 2^32) :
    readHeader (Memory.holding base b.bytes) base = .ok (some b) := by
  have hheader : (Memory.holding base b.bytes).bytes base 40 = b.header := by
    have hbytes := Memory.bytes_holding base [] b.header (b.structBlock ++ b.stringsBlock)
    rwa [List.nil_append, ← List.append_assoc] at hbytes
  have hstruct : (Memory.holding base b.bytes).bytes (base + 40) b.structBlock.length =
      b.structBlock := Memory.bytes_holding base b.header b.structBlock b.stringsBlock
  have hstrings : (Memory.holding base b.bytes).bytes (base + (40 + b.structBlock.length))
      b.stringsBlock.length = b.stringsBlock := by
    have hbytes := Memory.bytes_holding base (b.header ++ b.structBlock) b.stringsBlock []
    rwa [List.append_nil, List.length_append] at hbytes
  -- The words of the header that are read, by their place in it.
  have hmagic : (slice b.header 0 4 >>= readBeU32) = .ok fdtMagic := read_words (i := 0) rfl
  have htotal : (slice b.header 4 8 >>= readBeU32) = .ok b.totalSize := read_words (i := 1) rfl
  have hoffStruct : (slice b.header 8 12 >>= readBeU32) = .ok 40 := read_words (i := 2) rfl
  have hoffStrings : (slice b.header 12 16 >>= readBeU32) =
    .ok (UInt32.ofNat (40 + b.structBlock.length)) := read_words (i := 3) rfl
  have hsizeStrings : (slice b.header 32 36 >>= readBeU32) =
    .ok (UInt32.ofNat b.stringsBlock.length) := read_words (i := 8) rfl
  have hsizeStruct : (slice b.header 36 40 >>= readBeU32) =
    .ok (UInt32.ofNat b.structBlock.length) := read_words (i := 9) rfl
  have htoStruct := UInt32.toNat_ofNat_of_lt' b.struct_lt
  have htoStrings := UInt32.toNat_ofNat_of_lt' b.strings_lt
  have htoOffset := UInt32.toNat_ofNat_of_lt' h
  unfold readHeader
  dsimp only
  rw [hheader, hmagic, Exec.ok_bind, if_neg (not_not.mpr rfl), htotal, Exec.ok_bind, hoffStruct,
    Exec.ok_bind, hoffStrings, Exec.ok_bind, hsizeStruct, Exec.ok_bind, hsizeStrings, Exec.ok_bind,
    Exec.pure_eq]
  refine congrArg (fun b => Except.ok (some b)) ?_
  obtain ⟨total, struct, strings, hstructLt, hstringsLt⟩ := b
  rw [Blob.mk.injEq]
  refine ⟨rfl, ?_, ?_⟩
  · rw [htoStruct]
    exact hstruct
  · rw [htoOffset, htoStrings]
    exact hstrings

/-! ## Walks over trees -/

section Walks

variable {σ ρ : Type} {b : Blob} {v : Visitor σ ρ}

/-- One part of a walk after another. -/
def andThen (x : Exec (Iter σ ρ)) (f : σ → Exec (Iter σ ρ)) : Exec (Iter σ ρ) :=
  x >>= fun i =>
    match i with
    | .next s => f s
    | .done r => .ok (.done r)

/-- What a visitor does at the tokens of a tree. -/
def Visitor.fold (v : Visitor σ ρ) : Items → σ → Exec (Iter σ ρ)
  | .nil, s => .ok (.next s)
  | .prop name value rest, s => andThen (v.prop name value s) fun s => v.fold rest s
  | .node name items rest, s => do
    let s ← v.beginNode name s
    andThen (andThen (v.fold items s) v.endNode) fun s => v.fold rest s

/-- What is left to do after one part and another is what is left after the first. -/
theorem andThen_after (x : Exec (Iter σ ρ)) (f : σ → Exec (Iter σ ρ)) (k : σ → Exec ρ) :
    andThen x f >>= Loop.after k = x >>= Loop.after fun s => f s >>= Loop.after k := by
  cases x with
  | error e => rfl
  | ok i =>
    cases i with
    | next s => rfl
    | done r => rfl

/-- What follows an iteration that goes on at an offset. -/
theorem goOn_after (x : Exec (Iter σ ρ)) (offset : ℕ) (k : Cursor σ → Exec ρ) :
    ((x >>= fun i => pure (goOn offset i)) >>= Loop.after k) =
      x >>= Loop.after fun s => k ⟨offset, s⟩ := by
  cases x with
  | error e => rfl
  | ok i =>
    cases i with
    | next s => rfl
    | done r => rfl

/-- A walk at a token. -/
theorem run_token {offset : ℕ} {token : UInt32} (h : b.At offset (be32 token)) (s : σ) :
    (walker b v).run ⟨offset, s⟩ =
      (if token = fdtBeginNode then beginNodeAt b v (offset + 4) s
        else if token = fdtEndNode then endNodeAt v (offset + 4) s
        else if token = fdtProp then propAt b v (offset + 4) s
        else if token = fdtNop then .ok (.next ⟨offset + 4, s⟩)
        else .ok (.done (v.finish s))) >>= Loop.after (walker b v).run := by
  have hle : offset + 4 ≤ b.structBlock.length := h.le
  rw [Loop.run_eq]
  show step b v ⟨offset, s⟩ >>= _ = _
  rw [step, if_pos hle, h.read]
  rfl

/-- A walk passes `FDT_NOP`. -/
theorem run_nops {offset : ℕ} (n : ℕ) (h : b.At offset (nops n)) (s : σ) :
    (walker b v).run ⟨offset, s⟩ = (walker b v).run ⟨offset + 4 * n, s⟩ := by
  induction n generalizing offset with
  | zero => rfl
  | succ n ih =>
    have hsucc : nops (n + 1) = be32 fdtNop ++ nops n := by
      rw [nops, List.replicate_succ, List.flatten_cons, nops]
    rw [hsucc] at h
    obtain ⟨hnop, hrest⟩ := h.append
    rw [run_token hnop, if_neg (by decide), if_neg (by decide), if_neg (by decide), if_pos rfl,
      Exec.ok_bind]
    rw [length_be32] at hrest
    show (walker b v).run ⟨offset + 4, s⟩ = _
    rw [ih hrest]
    congr 2
    omega

/-- A walk at a property does what the visitor does, and goes on after the property. -/
theorem run_prop {offset : ℕ} {name value pad : Bytes} {nameoff : UInt32}
    (hoffset : offset % 4 = 0) (hname : StringAt b.stringsBlock nameoff.toNat name)
    (hvalue : value.length < 2^32) (hpad : Pads value.length pad)
    (h : b.At offset (be32 fdtProp ++ be32 (UInt32.ofNat value.length) ++ be32 nameoff ++ value ++
      pad)) (s : σ) :
    (walker b v).run ⟨offset, s⟩ = v.prop name value s >>= Loop.after fun s =>
      (walker b v).run ⟨offset + 12 + value.length + pad.length, s⟩ := by
  have hlt := b.struct_lt
  have hle := h.le
  obtain ⟨h, -⟩ := h.append
  obtain ⟨h, hvalueAt⟩ := h.append
  obtain ⟨h, hnameoffAt⟩ := h.append
  obtain ⟨htoken, hlenAt⟩ := h.append
  simp only [List.length_append, length_be32] at hle hvalueAt hnameoffAt hlenAt
  have hlen : (UInt32.ofNat value.length).toNat = value.length := UInt32.toNat_ofNat_of_lt' hvalue
  have hheader : propHeader b (offset + 4) = .ok (value.length, nameoff.toNat) := by
    have hnameoff := hnameoffAt.read
    rw [← Nat.add_assoc] at hnameoff
    rw [propHeader, hlenAt.read, Exec.ok_bind, hnameoff, Exec.ok_bind, hlen]
    rfl
  have halign : align4 (offset + 4 + 8 + value.length) = offset + 12 + value.length + pad.length := by
    have hmod := hpad.aligned
    have hpadlt := hpad.lt
    rw [align4_eq (by omega)]
    omega
  rw [run_token htoken, if_neg (by decide), if_neg (by decide), if_pos rfl,
    propAt_eq s (by omega) hheader (by omega) hvalueAt.slice_eq (getString_of_stringAt hname),
    goOn_after, halign]

/-- A walk at the beginning of a node enters it, and goes on after its name. -/
theorem run_begin {offset : ℕ} {name pad : Bytes} (hoffset : offset % 4 = 0) (hname : 0 ∉ name)
    (hpad : Pads (name.length + 1) pad)
    (h : b.At offset (be32 fdtBeginNode ++ (name ++ [0]) ++ pad)) (s : σ) :
    (walker b v).run ⟨offset, s⟩ = v.beginNode name s >>= fun s =>
      (walker b v).run ⟨offset + 4 + (name.length + 1) + pad.length, s⟩ := by
  have hlt := b.struct_lt
  have hle := h.le
  obtain ⟨h, -⟩ := h.append
  obtain ⟨htoken, hnameAt⟩ := h.append
  rw [length_be32] at hnameAt
  simp only [List.length_append, length_be32, List.length_singleton] at hle
  have halign : align4 (offset + 4 + name.length + 1) =
      offset + 4 + (name.length + 1) + pad.length := by
    have hmod := hpad.aligned
    have hpadlt := hpad.lt
    rw [align4_eq (by omega)]
    omega
  rw [run_token htoken, if_pos rfl, beginNodeAt, hnameAt.scan hname, Exec.ok_bind,
    hnameAt.append.1.slice_eq, Exec.ok_bind, halign]
  cases v.beginNode name s with
  | error e => rfl
  | ok s' => rfl

/-- A walk at the end of a node does what the visitor does, and goes on. -/
theorem run_end {offset : ℕ} (h : b.At offset (be32 fdtEndNode)) (s : σ) :
    (walker b v).run ⟨offset, s⟩ = v.endNode s >>= Loop.after fun s =>
      (walker b v).run ⟨offset + 4, s⟩ := by
  rw [run_token h, if_neg (by decide), if_pos rfl, endNodeAt, goOn_after]

/-- A walk over a flattening does what the visitor does at the tokens of the tree, and goes on after
it. -/
theorem run_flat {items : Items} {bytes : Bytes} (hflat : Flat b.stringsBlock items bytes)
    {offset : ℕ} (hoffset : offset % 4 = 0) (h : b.At offset bytes) (s : σ) :
    (walker b v).run ⟨offset, s⟩ = v.fold items s >>= Loop.after fun s =>
      (walker b v).run ⟨offset + bytes.length, s⟩ := by
  induction hflat generalizing offset s with
  | nil => rfl
  | @prop name value rest pad bytes n nameoff hname hvalue hpad hrest ih =>
    have hmod := hpad.aligned
    have hlen : (nops n ++ be32 fdtProp ++ be32 (UInt32.ofNat value.length) ++ be32 nameoff ++ value ++
        pad).length = 4 * n + 12 + value.length + pad.length := by
      simp only [List.length_append, length_nops, length_be32]
    obtain ⟨h, hrestAt⟩ := h.append
    rw [hlen] at hrestAt
    simp only [List.append_assoc] at h
    obtain ⟨hnops, hprop⟩ := h.append
    rw [length_nops] at hprop
    simp only [← List.append_assoc] at hprop
    rw [run_nops n hnops, run_prop (by omega) hname hvalue hpad hprop, Visitor.fold, andThen_after,
      List.length_append, hlen]
    congr 2
    funext s'
    rw [show offset + 4 * n + 12 + value.length + pad.length =
      offset + (4 * n + 12 + value.length + pad.length) by omega, ih (by omega) hrestAt]
    simp only [Nat.add_assoc]
  | @node name items rest pad bytes bytes' n m hname hpad hitems hrest ih ih' =>
    have hmod := hpad.aligned
    have hmod' := hitems.length_mod
    have hlen : (nops n ++ be32 fdtBeginNode ++ name ++ [0] ++ pad).length =
        4 * n + 4 + (name.length + 1) + pad.length := by
      simp only [List.length_append, length_nops, length_be32, List.length_singleton]
      omega
    obtain ⟨h, hrestAt⟩ := h.append
    obtain ⟨h, hendAt⟩ := h.append
    obtain ⟨h, hnopsAt⟩ := h.append
    obtain ⟨h, hitemsAt⟩ := h.append
    simp only [List.append_assoc] at h
    obtain ⟨hnops, hbegin⟩ := h.append
    rw [length_nops] at hbegin
    have hbegin' : b.At (offset + 4 * n) (be32 fdtBeginNode ++ (name ++ [0]) ++ pad) := by
      simpa only [List.append_assoc] using hbegin
    rw [List.length_append, List.length_append, List.length_append, hlen, length_nops,
      length_be32] at hrestAt
    rw [List.length_append, List.length_append, hlen, length_nops] at hendAt
    rw [List.length_append, hlen] at hnopsAt
    rw [hlen] at hitemsAt
    rw [List.length_append, List.length_append, List.length_append, List.length_append, hlen,
      length_nops, length_be32]
    generalize hhead : 4 * n + 4 + (name.length + 1) + pad.length = head at *
    -- The children, the node's end, and what follows it.
    have hrest : ∀ s, (walker b v).run ⟨offset + (head + bytes.length + 4 * m + 4), s⟩ =
        v.fold rest s >>= Loop.after fun s =>
          (walker b v).run ⟨offset + (head + bytes.length + 4 * m + 4 + bytes'.length), s⟩ := by
      intro s
      rw [ih' (by omega) hrestAt]
      simp only [Nat.add_assoc]
    have hend : ∀ s, (walker b v).run ⟨offset + (head + bytes.length), s⟩ =
        v.endNode s >>= Loop.after fun s =>
          (walker b v).run ⟨offset + (head + bytes.length + 4 * m + 4), s⟩ := by
      intro s
      have hrun := run_end (v := v) hendAt s
      simp only [← Nat.add_assoc] at hrun hnopsAt ⊢
      rw [run_nops m hnopsAt, hrun]
    have hitems : ∀ s, (walker b v).run ⟨offset + head, s⟩ =
        andThen (v.fold items s) v.endNode >>= Loop.after fun s =>
          (walker b v).run ⟨offset + (head + bytes.length + 4 * m + 4), s⟩ := by
      intro s
      rw [ih (by omega) hitemsAt, andThen_after]
      congr 2
      funext s'
      rw [Nat.add_assoc, hend s']
    rw [run_nops n hnops, run_begin (by omega) hname hpad hbegin', Visitor.fold, bind_assoc]
    congr 1
    funext s'
    rw [show offset + 4 * n + 4 + (name.length + 1) + pad.length = offset + head by omega, hitems,
      andThen_after (andThen (v.fold items s') v.endNode)]
    congr 2
    funext s''
    exact hrest s''

/-- A walk over a blob of a device tree does what the visitor does at the tokens of the tree. -/
theorem walk_flattens {root : Bytes} {items : Items} (h : Flattens b root items) (s : σ) :
    walk b v s = v.fold (.node root items .nil) s >>= Loop.after fun s => .ok (v.finish s) := by
  obtain ⟨bytes, n, trailing, hflat, hblock⟩ := h
  have hat : b.At 0 (bytes ++ nops n ++ be32 fdtEnd) := ⟨[], trailing, hblock, rfl⟩
  obtain ⟨hat, hendAt⟩ := hat.append
  obtain ⟨hbytes, hnops⟩ := hat.append
  rw [List.length_append, length_nops] at hendAt
  rw [walk, run_flat hflat (Nat.zero_mod 4) hbytes]
  congr 2
  funext s'
  have hlast : b.At (0 + bytes.length + 4 * n) (be32 fdtEnd) := by rwa [Nat.add_assoc]
  rw [run_nops n hnops, run_token hlast, if_neg (by decide), if_neg (by decide),
    if_neg (by decide), if_neg (by decide)]
  rfl

end Walks

end Ralix.Dtb
