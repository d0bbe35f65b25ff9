import Mathlib.Data.List.TakeWhile
import Ralix.Dtb.Reads

/-!
# `find_simplefb` on device trees

What `find_simplefb` finds on a blob of a device tree, as a definition on the tree: the first node in
post-order that describes a frame buffer with its own properties, its `reg` read with the cell counts in
force there (`simplefbOf`). `findSimplefb_tree` shows that this is what the walk returns, for trees of at
most 32 levels whose nodes have each property once and whose cell counts do not overflow.

The walk keeps what it knows of each open node in an array beside that of the cell counts. The fold over
the tree finds the entries of the nodes around unchanged after a child, and the entry of the node as its
own properties have made it (`SimpleFbState.after`). That entry is complete exactly if the node describes
a frame buffer (`info_after`).
-/

namespace Ralix.Dtb

open Lib

/-! ## Frame buffers in a tree -/

/-- The format that a string names. -/
def formatOf (value : Bytes) : Option SimpleFbFormat :=
  if value.takeWhile (· ≠ 0) = ascii "x8r8g8b8" then some .x8r8g8b8
  else if value.takeWhile (· ≠ 0) = ascii "a8r8g8b8" then some .a8r8g8b8
  else none

/-- The first entry of a `reg` in some cell counts, if there is one: its address and its size. -/
def Cells.firstEntry (c : Cells) (value : Bytes) : Option (UInt64 × UInt64) :=
  let addrBytes := c.addr.toNat * 4
  let sizeBytes := c.size.toNat * 4
  if 0 < addrBytes + sizeBytes ∧ addrBytes + sizeBytes ≤ value.length then
    some (word64 (value.take addrBytes), word64 ((value.drop addrBytes).take sizeBytes))
  else none

/-- A node of a tree: the cell counts that it begins with, and its own properties in order. -/
structure TreeNode where
  base : Cells
  own : List (Bytes × Bytes)

namespace TreeNode

variable (n : TreeNode)

/-- The value of a property of the node. -/
def value? (name : Bytes) : Option Bytes := n.own.lookup name

/-- The number of a property of the node, if it has one that is not zero. -/
def number? (name : Bytes) : Option UInt32 := do
  let value ← n.value? name
  if 4 ≤ value.length ∧ word32 (value.take 4) ≠ 0 then some (word32 (value.take 4)) else none

/-- The cell counts in force at a property of the node. -/
def cellsAt (name : Bytes) : Cells := n.base.after (n.own.takeWhile fun p => p.1 ≠ name)

/-- The frame buffer that a node describes, if it describes one: it is compatible with
`simple-framebuffer`, and has a size that is not empty, a format, and an address. -/
def simplefb : Option SimpleFbInfo := do
  let compatible ← n.value? (ascii "compatible")
  let width ← n.number? (ascii "width")
  let height ← n.number? (ascii "height")
  let stride ← n.number? (ascii "stride")
  let format ← n.value? (ascii "format") >>= formatOf
  let (addr, size) ← n.value? (ascii "reg") >>= (n.cellsAt (ascii "reg")).firstEntry
  if ascii "simple-framebuffer" ∈ compatible.splitOn 0 ∧ addr ≠ 0 then
    some ⟨addr, size, width, height, stride, format⟩
  else none

end TreeNode

/-- The nodes below a node in post-order, where cell counts are in force. -/
def Items.postOrder : Items → Cells → List TreeNode
  | .nil, _ => []
  | .prop name value rest, c => rest.postOrder (c.update name value)
  | .node _ items rest, c => items.postOrder c ++ ⟨c, items.ownProps⟩ :: rest.postOrder c

/-- The nodes of a tree in post-order. -/
def treeNodes (items : Items) : List TreeNode :=
  items.postOrder NodeContext.root.cells ++ [⟨NodeContext.root.cells, items.ownProps⟩]

/-- The frame buffer of the first node in post-order that describes one. -/
def simplefbOf (items : Items) : Option SimpleFbInfo := (treeNodes items).findSome? TreeNode.simplefb

/-! ## Strings in a list -/

/-- A string of a list that is not empty is what comes before the first NUL, or a string of what comes
after it. -/
theorem mem_splitOn_nul {needle : Bytes} (hneedle : needle ≠ []) (xs : Bytes) :
    needle ∈ xs.splitOn 0 ↔ needle = xs.takeWhile (· ≠ 0) ∨
      needle ∈ (xs.drop ((xs.takeWhile (· ≠ 0)).length + 1)).splitOn 0 := by
  have hnul : (0 : UInt8) ∉ xs.takeWhile (· ≠ 0) := by
    intro hmem
    simpa using List.mem_takeWhile_imp hmem
  have hsplit : xs.takeWhile (· ≠ 0) ++ xs.dropWhile (· ≠ 0) = xs := List.takeWhile_append_dropWhile
  have hdrop : xs.drop ((xs.takeWhile (· ≠ 0)).length + 1) = (xs.dropWhile (· ≠ 0)).tail := by
    have hleft : (xs.takeWhile (· ≠ 0) ++ xs.dropWhile (· ≠ 0)).drop (xs.takeWhile (· ≠ 0)).length =
      xs.dropWhile (· ≠ 0) := List.drop_left
    rw [hsplit] at hleft
    rw [← List.drop_drop, hleft, List.drop_one]
  rw [hdrop]
  cases hrest : xs.dropWhile (· ≠ 0) with
  | nil =>
    rw [hrest, List.append_nil] at hsplit
    rw [hsplit] at hnul
    rw [List.splitOn_eq_singleton hnul, hsplit, List.tail_nil, List.splitOn_nil, List.mem_singleton,
      List.mem_singleton]
    exact ⟨.inl, fun h => h.elim id fun hnil => absurd hnil hneedle⟩
  | cons z rest =>
    have hz : z = 0 := by
      have hhead := List.head?_dropWhile_not (· ≠ 0) xs
      rw [hrest] at hhead
      simpa using hhead
    subst hz
    rw [hrest] at hsplit
    conv_lhs => rw [← hsplit]
    rw [List.splitOn_append_cons_self_of_not_mem hnul, List.mem_cons, List.tail_cons]

/-- `value_has_string` finds the strings of a list that are not empty. -/
theorem valueHasStringLoop_eq {buf needle : Bytes} (hneedle : needle ≠ []) {n start : ℕ}
    (h : buf.length ≤ start + n) :
    valueHasStringLoop buf needle n start = .ok (decide (needle ∈ (buf.drop start).splitOn 0)) := by
  induction n generalizing start with
  | zero =>
    rw [List.drop_eq_nil_of_le (show buf.length ≤ start from h), List.splitOn_nil, decide_eq_false]
    · rfl
    · rwa [List.mem_singleton]
  | succ n ih =>
    rw [valueHasStringLoop]
    by_cases hlt : start < buf.length
    · obtain ⟨seg, hseg⟩ : ∃ seg, seg = (buf.drop start).takeWhile (· ≠ 0) := ⟨_, rfl⟩
      have hpre : seg <+: buf.drop start := by
        rw [hseg]
        exact List.takeWhile_prefix _
      have hlen := hpre.length_le
      rw [List.length_drop] at hlen
      have hslice : slice buf start (start + seg.length) = .ok seg := by
        rw [slice_ok (Nat.le_add_right _ _) (by omega), Nat.add_sub_cancel_left,
          ← List.prefix_iff_eq_take.mp hpre]
      -- An empty part is passed over, and it is not the string.
      have hcond : (start + seg.length > start ∧ seg = needle) ↔ needle = seg := by
        constructor
        · exact fun hfound => hfound.2.symm
        · rintro rfl
          exact ⟨Nat.lt_add_of_pos_right (List.length_pos_of_ne_nil hneedle), rfl⟩
      have hmem := mem_splitOn_nul hneedle (buf.drop start)
      rw [← hseg, List.drop_drop, ← Nat.add_assoc] at hmem
      rw [if_pos hlt, scanNul_eq (by omega), ← hseg, Exec.ok_bind, hslice, Exec.ok_bind,
        ih (by omega)]
      simp only [hcond, hmem]
      by_cases heq : needle = seg
      · rw [if_pos heq, decide_eq_true (.inl heq)]
        rfl
      · rw [if_neg heq]
        simp only [heq, false_or]
    · rw [if_neg hlt, List.drop_eq_nil_of_le (Nat.not_lt.mp hlt), List.splitOn_nil, decide_eq_false]
      rwa [List.mem_singleton]

/-- `parse_format` finds the format. -/
theorem parseFormat_eq (value : Bytes) : parseFormat value = .ok (formatOf value) := by
  have hlen := (List.takeWhile_prefix (l := value) (p := (· ≠ 0))).length_le
  have hscan := scanNul_eq (Nat.zero_add value.length)
  rw [List.drop_zero, Nat.zero_add] at hscan
  have htake : value.take (value.takeWhile (· ≠ 0)).length = value.takeWhile (· ≠ 0) :=
    (List.prefix_iff_eq_take.mp (List.takeWhile_prefix _)).symm
  rw [parseFormat, hscan, Exec.ok_bind, slice_ok (Nat.zero_le _) hlen, Exec.ok_bind, List.drop_zero,
    Nat.sub_zero, htake, formatOf]
  split_ifs
  · rfl
  · rfl
  · rfl

/-! ## What is known of a node -/

/-- The number of a property that is long enough for one, or what was known before. -/
def numberOr (value : Bytes) (old : UInt32) : UInt32 :=
  if 4 ≤ value.length then word32 (value.take 4) else old

/-- What is known of a node after a property, where cell counts are in force. -/
def SimpleFbState.update (fb : SimpleFbState) (c : Cells) (name value : Bytes) : SimpleFbState :=
  if name = ascii "reg" then
    let entry := (c.firstEntry value).getD (fb.addr, fb.size)
    { fb with addr := entry.1, size := entry.2 }
  else if name = ascii "compatible" then
    { fb with isSimplefb := fb.isSimplefb || decide (ascii "simple-framebuffer" ∈ value.splitOn 0) }
  else if name = ascii "width" then { fb with width := numberOr value fb.width }
  else if name = ascii "height" then { fb with height := numberOr value fb.height }
  else if name = ascii "stride" then { fb with stride := numberOr value fb.stride }
  else if name = ascii "format" then { fb with format := formatOf value }
  else fb

/-- What is known of a node after some properties. -/
def SimpleFbState.after (fb : SimpleFbState) (c : Cells) : List (Bytes × Bytes) → SimpleFbState
  | [] => fb
  | p :: props => (fb.update c p.1 p.2).after (c.update p.1 p.2) props

/-- The first entry of a `reg` is read, if there is one. -/
theorem simplefbReg_eq {ctx : NodeContext} (hsum : ctx.addrCells.toNat + ctx.sizeCells.toNat < 2^32)
    (value : Bytes) (fb : SimpleFbState) :
    simplefbReg ctx value fb = .ok (fb.update ctx.cells (ascii "reg") value) := by
  have hbytes : (ctx.addrCells + ctx.sizeCells).toNat * 4 = ctx.entryBytes := by
    show _ = ctx.addrCells.toNat * 4 + ctx.sizeCells.toNat * 4
    rw [UInt32.toNat_add]
    omega
  have hentries : ctx.cells.firstEntry value =
      if 0 < ctx.entryBytes ∧ ctx.entryBytes ≤ value.length then some (ctx.entryAt value 0) else none := by
    unfold Cells.firstEntry NodeContext.entryAt
    rw [List.drop_zero, Nat.zero_add]
    rfl
  unfold simplefbReg SimpleFbState.update
  dsimp only
  rw [hbytes, hentries, if_pos rfl]
  by_cases hzero : (ctx.addrCells + ctx.sizeCells).toNat = 0
  · rw [if_pos hzero, if_neg (by omega)]
    rfl
  rw [if_neg hzero]
  by_cases hlen : value.length < ctx.entryBytes
  · rw [if_pos hlen, if_neg (by omega)]
    rfl
  · rw [if_neg hlen, if_pos (by omega), regEntry_eq ctx (by omega)]
    rfl

/-- A property updates what is known of a node. -/
theorem SimpleFbState.prop_eq (fb : SimpleFbState) {ctx : NodeContext} {name value : Bytes}
    (hsum : name = ascii "reg" → ctx.addrCells.toNat + ctx.sizeCells.toNat < 2^32) :
    fb.prop ctx name value = .ok (fb.update ctx.cells name value) := by
  unfold prop
  by_cases hreg : name = ascii "reg"
  · rw [if_pos hreg, simplefbReg_eq (hsum hreg), hreg]
  have hstring : valueHasString value (ascii "simple-framebuffer") =
      .ok (decide (ascii "simple-framebuffer" ∈ value.splitOn 0)) :=
    valueHasStringLoop_eq (by decide) (Nat.zero_add value.length).ge
  have hnumber : ∀ old, u32Or value old = .ok (numberOr value old) := u32Or_eq value
  unfold update
  rw [if_neg hreg, if_neg hreg, hstring, hnumber, hnumber, hnumber, parseFormat_eq]
  split_ifs <;> rfl

section Fields

variable {α : Type} {f : SimpleFbState → α} {k : Bytes} {g : Cells → Bytes → α → α}

/-- What is known of one thing is kept by properties that are about others. -/
theorem SimpleFbState.field_of_not_mem
    (hother : ∀ fb c name value, name ≠ k → f (SimpleFbState.update fb c name value) = f fb)
    {props : List (Bytes × Bytes)} (h : k ∉ props.map Prod.fst) (fb : SimpleFbState) (c : Cells) :
    f (fb.after c props) = f fb := by
  induction props generalizing fb c with
  | nil => rfl
  | cons p props ih =>
    rw [List.map_cons, List.mem_cons, not_or] at h
    rw [after, ih h.2, hother _ _ _ _ (Ne.symm h.1)]

/-- What is known of one thing comes from the one property that is about it, with the cell counts in
force there. -/
theorem SimpleFbState.field_after
    (hother : ∀ fb c name value, name ≠ k → f (SimpleFbState.update fb c name value) = f fb)
    (hown : ∀ fb c value, f (SimpleFbState.update fb c k value) = g c value (f fb))
    {n : TreeNode} (h : (n.own.map Prod.fst).Nodup) (fb : SimpleFbState) :
    f (fb.after n.base n.own) = match n.value? k with
      | some value => g (n.cellsAt k) value (f fb)
      | none => f fb := by
  obtain ⟨base, own⟩ := n
  induction own generalizing base fb with
  | nil => rfl
  | cons p own ih =>
    obtain ⟨name, value⟩ := p
    rw [List.map_cons, List.nodup_cons] at h
    by_cases hname : name = k
    · subst hname
      have hvalue : TreeNode.value? ⟨base, (name, value) :: own⟩ name = some value := by
        simp [TreeNode.value?]
      have hcells : TreeNode.cellsAt ⟨base, (name, value) :: own⟩ name = base := by
        simp [TreeNode.cellsAt, Cells.after]
      rw [hvalue, hcells]
      -- the names are distinct, so no later property is the field's
      show f ((fb.update base name value).after (base.update name value) own) = _
      rw [field_of_not_mem hother h.1, hown]
    · have hne : (k == name) = false := beq_eq_false_iff_ne.mpr (Ne.symm hname)
      have hvalue : TreeNode.value? ⟨base, (name, value) :: own⟩ k =
          TreeNode.value? ⟨base.update name value, own⟩ k := by
        simp [TreeNode.value?, List.lookup_cons, hne]
      have hcells : TreeNode.cellsAt ⟨base, (name, value) :: own⟩ k =
          TreeNode.cellsAt ⟨base.update name value, own⟩ k := by
        simp [TreeNode.cellsAt, Cells.after, hname]
      have hrest := ih (fb.update base name value) (base.update name value) h.2
      rw [hvalue, hcells]
      rw [hother _ _ _ _ hname] at hrest
      exact hrest

end Fields

section Info

variable {n : TreeNode}

/-- What is known of a number is that of its property, or zero. -/
theorem number_after (h : (n.own.map Prod.fst).Nodup) {k : Bytes} {f : SimpleFbState → UInt32}
    (hnew : f SimpleFbState.new = 0)
    (hother : ∀ fb c name value, name ≠ k → f (SimpleFbState.update fb c name value) = f fb)
    (hown : ∀ fb c value, f (SimpleFbState.update fb c k value) = numberOr value (f fb)) :
    n.number? k = if f (SimpleFbState.new.after n.base n.own) ≠ 0 then
      some (f (SimpleFbState.new.after n.base n.own)) else none := by
  rw [SimpleFbState.field_after hother (g := fun _ => numberOr) hown h, hnew, TreeNode.number?]
  cases n.value? k with
  | none => rfl
  | some value =>
    show (if _ then _ else _) = if numberOr value 0 ≠ 0 then _ else _
    unfold numberOr
    by_cases hlen : 4 ≤ value.length
    · simp only [hlen, true_and, if_true]
    · simp only [hlen, false_and, if_false, ne_eq, not_true_eq_false]

/-- What is known of the address and the size is the first entry of the `reg`. -/
theorem reg_after (h : (n.own.map Prod.fst).Nodup) :
    (n.value? (ascii "reg") >>= (n.cellsAt (ascii "reg")).firstEntry).getD (0, 0) =
      ((SimpleFbState.new.after n.base n.own).addr, (SimpleFbState.new.after n.base n.own).size) := by
  have hafter := SimpleFbState.field_after (f := fun fb => (fb.addr, fb.size)) (k := ascii "reg")
    (g := fun c value old => (c.firstEntry value).getD old) ?_ (fun _ _ _ => rfl) h SimpleFbState.new
  · rw [hafter]
    cases n.value? (ascii "reg") with
    | none => rfl
    | some value => rfl
  · intro fb c name value hne
    unfold SimpleFbState.update
    rw [if_neg hne]
    split_ifs <;> rfl

/-- What is known of the format is that of the property. -/
theorem format_after (h : (n.own.map Prod.fst).Nodup) :
    n.value? (ascii "format") >>= formatOf = (SimpleFbState.new.after n.base n.own).format := by
  have hafter := SimpleFbState.field_after (f := SimpleFbState.format) (k := ascii "format")
    (g := fun _ value _ => formatOf value) ?_ (fun _ _ _ => rfl) h SimpleFbState.new
  · rw [hafter]
    cases n.value? (ascii "format") with
    | none => rfl
    | some value => rfl
  · intro fb c name value hne
    unfold SimpleFbState.update
    rw [if_neg hne]
    split_ifs <;> rfl

/-- A node is known to be a frame buffer if its property says so. -/
theorem compatible_after (h : (n.own.map Prod.fst).Nodup) :
    (∃ value, n.value? (ascii "compatible") = some value ∧
      ascii "simple-framebuffer" ∈ value.splitOn 0) ↔
        (SimpleFbState.new.after n.base n.own).isSimplefb = true := by
  have hafter := SimpleFbState.field_after (f := SimpleFbState.isSimplefb) (k := ascii "compatible")
    (g := fun _ value old => old || decide (ascii "simple-framebuffer" ∈ value.splitOn 0)) ?_
    (fun _ _ _ => rfl) h SimpleFbState.new
  · rw [hafter]
    cases n.value? (ascii "compatible") with
    | none => simp [SimpleFbState.new]
    | some value => simp [SimpleFbState.new]
  · intro fb c name value hne
    unfold SimpleFbState.update
    rw [if_neg (c := name = ascii "compatible") hne]
    split_ifs <;> rfl

/-- What is known of a node at its end is the frame buffer that it describes. -/
theorem info_after (h : (n.own.map Prod.fst).Nodup) :
    (SimpleFbState.new.after n.base n.own).info = n.simplefb := by
  have hcompatible := compatible_after h
  have hformat := format_after h
  have hreg := reg_after h
  have hwidth : n.number? (ascii "width") = _ := number_after h (f := SimpleFbState.width) rfl ?_
    fun _ _ _ => rfl
  have hheight : n.number? (ascii "height") = _ := number_after h (f := SimpleFbState.height) rfl ?_
    fun _ _ _ => rfl
  have hstride : n.number? (ascii "stride") = _ := number_after h (f := SimpleFbState.stride) rfl ?_
    fun _ _ _ => rfl
  · unfold TreeNode.simplefb SimpleFbState.info
    rw [hwidth, hheight, hstride, hformat]
    -- from here on the walk is forgotten: the state is any that holds the node's values
    generalize SimpleFbState.new.after n.base n.own = fb at *
    by_cases hw : fb.width = 0
    · simp [hw]
    by_cases hh : fb.height = 0
    · simp [hh]
    by_cases hs : fb.stride = 0
    · simp [hs]
    simp only [ne_eq, hw, hh, hs, not_false_eq_true, if_true, and_true]
    cases hc : n.value? (ascii "compatible") with
    | none =>
      have hfalse : ¬fb.isSimplefb = true := by
        rw [← hcompatible, hc]
        rintro ⟨value, hvalue, -⟩
        cases hvalue
      rw [if_neg fun h => hfalse h.1]
      rfl
    | some compatible =>
      have hmem : fb.isSimplefb = true ↔ ascii "simple-framebuffer" ∈ compatible.splitOn 0 := by
        rw [← hcompatible, hc]
        simp only [Option.some.injEq, exists_eq_left']
      cases hentry : n.value? (ascii "reg") >>= (n.cellsAt (ascii "reg")).firstEntry with
      | none =>
        -- without an entry the address stays 0, which the source takes for no framebuffer
        rw [hentry] at hreg
        have hzero : fb.addr = 0 := (congrArg Prod.fst hreg).symm
        rw [if_neg fun h => h.2 hzero]
        cases fb.format with
        | none => rfl
        | some format => rfl
      | some entry =>
        rw [hentry, Option.getD_some] at hreg
        subst hreg
        cases fb.format with
        | none => simp
        | some format => simp only [hmem, Option.map_some, Option.bind_eq_bind, Option.bind_some]
  · intro fb c name value hne
    unfold SimpleFbState.update
    rw [if_neg (c := name = ascii "stride") hne]
    split_ifs <;> rfl
  · intro fb c name value hne
    unfold SimpleFbState.update
    rw [if_neg (c := name = ascii "height") hne]
    split_ifs <;> rfl
  · intro fb c name value hne
    unfold SimpleFbState.update
    rw [if_neg (c := name = ascii "width") hne]
    split_ifs <;> rfl

end Info

/-! ## The fold -/

/-- The cell counts in force at each `reg` among some properties do not overflow. -/
def Cells.NoOverflow (c : Cells) : List (Bytes × Bytes) → Prop
  | [] => True
  | p :: props => (p.1 = ascii "reg" → c.addr.toNat + c.size.toNat < 2^32) ∧
    (c.update p.1 p.2).NoOverflow props

/-- A node is open, in cell counts and with what is known of it, and so are the nodes around it. -/
structure SimpleFbWalk.Open (s : SimpleFbWalk) (c : Cells) (fb : SimpleFbState) (cs : List Cells)
    (fbs : List SimpleFbState) : Prop where
  inv : s.Inv
  cells : s.frames = c :: cs
  known : upTo s.fbStack s.depth = fb :: fbs

section Fold

variable {s : SimpleFbWalk} {c : Cells} {fb : SimpleFbState} {cs : List Cells}
  {fbs : List SimpleFbState}

/-- `find_simplefb` at a property of an open node. -/
theorem simplefbProp_open (h : s.Open c fb cs fbs) {name value : Bytes}
    (hsum : name = ascii "reg" → c.addr.toNat + c.size.toNat < 2^32) :
    ∃ s', simplefbProp name value s = .ok (.next s') ∧ s'.depth = s.depth ∧
      s'.Open (c.update name value) (fb.update c name value) cs fbs := by
  have hle := h.inv.depth_le.trans_eq h.inv.length.symm
  have hle' := h.inv.depth_le.trans_eq h.inv.fbLength.symm
  obtain ⟨ctx, rest, hstack, rfl, hrest⟩ := List.map_eq_cons_iff.mp h.cells
  have hpos := pos_of_upTo hstack
  obtain ⟨ctx', hctx'⟩ := NodeContext.cellsProp_ok ctx name value
  have hprop : simplefbProp name value s = .ok (.next ⟨s.stack.set (s.depth - 1) ctx',
      s.fbStack.set (s.depth - 1) (fb.update ctx.cells name value), s.depth⟩) := by
    rw [simplefbProp, if_neg (Nat.ne_of_gt hpos), index_top hle hstack, Exec.ok_bind,
      index_top hle' h.known, Exec.ok_bind, hctx', Exec.ok_bind, setIndex_ok (by omega), Exec.ok_bind,
      fb.prop_eq hsum, Exec.ok_bind, setIndex_ok (by omega)]
    rfl
  refine ⟨_, hprop, rfl, simplefbVisitor_keeps.prop h.inv hprop, ?_, ?_⟩
  · rw [simplefbVisitor_tracks.propTop h.inv hprop h.cells, NodeContext.cells_update]
  · show upTo (s.fbStack.set (s.depth - 1) _) s.depth = _
    rw [upTo_setTop hpos hle', h.known, List.tail_cons]

/-- `find_simplefb` at the beginning of a child of an open node. -/
theorem simplefbBegin_open (h : s.Open c fb cs fbs) (hlt : s.depth < 32) :
    ∃ s', simplefbBegin s = .ok s' ∧ s'.depth = s.depth + 1 ∧
      s'.Open c SimpleFbState.new (c :: cs) (fb :: fbs) := by
  have hlen := h.inv.length
  have hlen' := h.inv.fbLength
  obtain ⟨ctx, rest, hstack, rfl, hrest⟩ := List.map_eq_cons_iff.mp h.cells
  have hpos := pos_of_upTo hstack
  have hbegin : simplefbBegin s = .ok ⟨s.stack.set s.depth ctx,
      s.fbStack.set s.depth SimpleFbState.new, s.depth + 1⟩ := by
    rw [simplefbBegin, parentOf, if_neg (Nat.ne_of_gt hpos), index_top (by omega) hstack, Exec.ok_bind,
      if_pos (by omega), setIndex_ok (by omega), Exec.ok_bind, setIndex_ok (by omega)]
    rfl
  obtain ⟨s', hs', hinv⟩ := simplefbVisitor_keeps.beginNode [] h.inv
  obtain rfl := Except.ok.inj (hs'.symm.trans hbegin)
  refine ⟨_, hbegin, rfl, hinv, ?_, ?_⟩
  · show (upTo (s.stack.set s.depth ctx) (s.depth + 1)).map NodeContext.cells = _
    rw [upTo_push (by omega), hstack, List.map_cons, List.map_cons, hrest]
  · show upTo (s.fbStack.set s.depth _) (s.depth + 1) = _
    rw [upTo_push (by omega), h.known]

/-- `find_simplefb` at the beginning of the root. -/
theorem simplefbBegin_root : ∃ s', simplefbBegin SimpleFbWalk.start = .ok s' ∧ s'.depth = 1 ∧
    s'.Open NodeContext.root.cells SimpleFbState.new [] [] := by
  obtain ⟨s', hs', hinv⟩ := simplefbVisitor_keeps.beginNode [] SimpleFbWalk.inv_start
  have hbegin : simplefbBegin SimpleFbWalk.start = .ok
      ⟨(List.replicate 32 NodeContext.root).set 0 NodeContext.root,
        (List.replicate 32 SimpleFbState.new).set 0 SimpleFbState.new, 1⟩ := rfl
  obtain rfl := Except.ok.inj (hs'.symm.trans hbegin)
  exact ⟨_, hbegin, rfl, hinv, rfl, rfl⟩

/-- `find_simplefb` returns at the end of a node that is a frame buffer. -/
theorem simplefbEnd_some (h : s.Open c fb cs fbs) {info : SimpleFbInfo} (hinfo : fb.info = some info) :
    simplefbEnd s = .ok (.done (some info)) := by
  have hpos := pos_of_upTo h.known
  rw [simplefbEnd, if_pos hpos, index_top (h.inv.depth_le.trans_eq h.inv.fbLength.symm) h.known,
    Exec.ok_bind, hinfo]
  rfl

/-- At the end of another node, it goes on in the node around it. -/
theorem simplefbEnd_none (h : s.Open c fb cs fbs) (hinfo : fb.info = none) :
    ∃ s', simplefbEnd s = .ok (.next s') ∧ s'.depth + 1 = s.depth ∧
      s'.Inv ∧ s'.frames = cs ∧ upTo s'.fbStack s'.depth = fbs := by
  have hpos := pos_of_upTo h.known
  have hle := h.inv.depth_le.trans_eq h.inv.length.symm
  have hle' := h.inv.depth_le.trans_eq h.inv.fbLength.symm
  have hcells := h.cells
  refine ⟨⟨s.stack, s.fbStack, s.depth - 1⟩, ?_, Nat.sub_add_cancel hpos, ?_, ?_, ?_⟩
  · rw [simplefbEnd, if_pos hpos, index_top hle' h.known, Exec.ok_bind, hinfo]
    rfl
  · exact ⟨h.inv.length, h.inv.fbLength, (Nat.sub_le _ _).trans h.inv.depth_le⟩
  · rw [SimpleFbWalk.frames] at hcells ⊢
    rw [upTo_pop hle, List.map_tail, hcells, List.tail_cons]
  · rw [upTo_pop hle', h.known, List.tail_cons]

/-- The properties and children of an open node: the walk returns the first frame buffer below it, and
else the node is open, with what its own properties say. -/
theorem fold_simplefb (items : Items) (h : s.Open c fb cs fbs) (hdepth : s.depth + items.height ≤ 32)
    (hsum : c.NoOverflow items.ownProps)
    (hnodes : ∀ n ∈ items.postOrder c, (n.own.map Prod.fst).Nodup ∧ n.base.NoOverflow n.own) :
    match (items.postOrder c).findSome? TreeNode.simplefb with
    | some info => simplefbVisitor.fold items s = .ok (.done (some info))
    | none => ∃ s', simplefbVisitor.fold items s = .ok (.next s') ∧ s'.depth = s.depth ∧
        s'.Open (c.after items.ownProps) (fb.after c items.ownProps) cs fbs := by
  induction items generalizing s c fb cs fbs with
  | nil => exact ⟨s, rfl, rfl, h⟩
  | prop name value rest ih =>
    obtain ⟨s', hs', hd, hopen⟩ : ∃ s', simplefbProp name value s = .ok (.next s') ∧ _ ∧ _ :=
      simplefbProp_open h hsum.1
    have hrest := ih hopen (by rw [hd]; exact hdepth) hsum.2 hnodes
    rw [Items.postOrder, Visitor.fold, show simplefbVisitor.prop name value s = _ from hs']
    rw [hd] at hrest
    exact hrest
  | node name items rest ih ih' =>
    rw [Items.height] at hdepth
    rw [Items.postOrder, List.forall_mem_append, List.forall_mem_cons] at hnodes
    obtain ⟨hitems, hnode, hrest⟩ := hnodes
    obtain ⟨s₁, hs₁, hd₁, hopen₁⟩ := simplefbBegin_open h (by omega)
    have hchild := ih hopen₁ (by omega) hnode.2 hitems
    rw [Items.postOrder, List.findSome?_append, List.findSome?_cons, Visitor.fold,
      show simplefbVisitor.beginNode name s = _ from hs₁, Exec.ok_bind]
    cases hfound : (items.postOrder c).findSome? TreeNode.simplefb with
    | some info =>
      rw [hfound] at hchild
      rw [Option.some_or]
      show andThen (andThen (simplefbVisitor.fold items s₁) _) _ = _
      rw [show simplefbVisitor.fold items s₁ = _ from hchild]
      rfl
    | none =>
      rw [hfound] at hchild
      obtain ⟨s₂, hs₂, hd₂, hopen₂⟩ := hchild
      have hinfo := info_after (n := ⟨c, items.ownProps⟩) hnode.1
      dsimp only at hinfo
      rw [Option.none_or, hs₂, ← hinfo]
      cases hend : (SimpleFbState.new.after c items.ownProps).info with
      | some info =>
        show andThen (andThen (.ok (.next s₂)) simplefbEnd) _ = _
        show andThen (simplefbEnd s₂) _ = _
        rw [simplefbEnd_some hopen₂ hend]
        rfl
      | none =>
        -- The node around is open again as it was.
        obtain ⟨s₃, hs₃, hd₃, hinv, hcells, hknown⟩ := simplefbEnd_none hopen₂ hend
        have hafter := ih' ⟨hinv, hcells, hknown⟩ (by omega) hsum hrest
        show match (rest.postOrder c).findSome? TreeNode.simplefb with
          | some info => andThen (simplefbEnd s₂) (simplefbVisitor.fold rest) = _
          | none => ∃ s', andThen (simplefbEnd s₂) (simplefbVisitor.fold rest) = _ ∧ _
        rw [hs₃]
        rw [show s₃.depth = s.depth by omega] at hafter
        exact hafter

end Fold

/-! ## The walk -/

/-- What a tree must be like: 32 levels at most, each property of a node once, and cell counts that do
not overflow. -/
structure SimpleFbTree (items : Items) : Prop where
  levels : items.height + 1 ≤ 32
  distinct : ∀ n ∈ treeNodes items, (n.own.map Prod.fst).Nodup
  noOverflow : ∀ n ∈ treeNodes items, n.base.NoOverflow n.own

/-- `find_simplefb` returns the frame buffer of the first node in post-order that describes one. -/
theorem findSimplefb_tree {b : Blob} {root : Bytes} {items : Items} (h : Flattens b root items)
    (htree : SimpleFbTree items) : findSimplefbIn b = .ok (simplefbOf items) ∧
      ∀ mem dtbPa, dtbPa ≠ 0 → readHeader mem dtbPa = .ok (some b) →
        findSimplefb mem dtbPa = .ok (simplefbOf items) := by
  have hlevels := htree.levels
  have hnodes : ∀ n ∈ treeNodes items, (n.own.map Prod.fst).Nodup ∧ n.base.NoOverflow n.own :=
    fun n hn => ⟨htree.distinct n hn, htree.noOverflow n hn⟩
  rw [treeNodes, List.forall_mem_append, List.forall_mem_singleton] at hnodes
  obtain ⟨hbelow, hroot⟩ := hnodes
  have hwalk : findSimplefbIn b = .ok (simplefbOf items) := by
    obtain ⟨s, hs, hd, hopen⟩ := simplefbBegin_root
    have hfold := fold_simplefb items hopen (by omega) hroot.2 hbelow
    have hinfo := info_after (n := ⟨NodeContext.root.cells, items.ownProps⟩) hroot.1
    dsimp only at hinfo
    rw [findSimplefbIn, walk_flattens h, Visitor.fold,
      show simplefbVisitor.beginNode root SimpleFbWalk.start = _ from hs, Exec.ok_bind, simplefbOf,
      treeNodes, List.findSome?_append, List.findSome?_singleton, ← hinfo]
    -- nodes are looked at where they end, so the root comes last
    cases hfound : (items.postOrder NodeContext.root.cells).findSome? TreeNode.simplefb with
    | some info =>
      rw [hfound] at hfold
      rw [show simplefbVisitor.fold items s = _ from hfold]
      rfl
    | none =>
      rw [hfound] at hfold
      obtain ⟨s', hs', -, hopen'⟩ := hfold
      rw [hs', Option.none_or]
      show andThen (simplefbEnd s') _ >>= _ = _
      cases hend : (SimpleFbState.new.after NodeContext.root.cells items.ownProps).info with
      | some info =>
        rw [simplefbEnd_some hopen' hend]
        rfl
      | none =>
        obtain ⟨s'', hs'', -⟩ := simplefbEnd_none hopen' hend
        rw [hs'']
        rfl
  refine ⟨hwalk, fun mem dtbPa hpa hheader => ?_⟩
  rw [findSimplefb, if_neg hpa, hheader, Exec.ok_bind]
  exact hwalk

/-! ## A frame buffer below `/chosen` -/

/-- A frame buffer that says all but where it is in `/chosen`, and one that says all below it. -/
def chosenTree : Items :=
  .node (ascii "chosen")
    (.prop (ascii "#address-cells") (be32 1)
      (.prop (ascii "compatible") (ascii "simple-framebuffer" ++ [0])
        (.prop (ascii "width") (be32 640)
          (.node (ascii "framebuffer")
            (.prop (ascii "format") (ascii "a8r8g8b8" ++ [0])
              (.prop (ascii "stride") (be32 256)
                (.prop (ascii "reg") (be32 0x3c100000 ++ be32 0 ++ be32 0x2000)
                  (.prop (ascii "height") (be32 32)
                    (.prop (ascii "width") (be32 64)
                      (.prop (ascii "compatible")
                        (ascii "vendor,fb" ++ [0] ++ ascii "simple-framebuffer" ++ [0]) .nil))))))
            .nil))))
    .nil

/-- The names of its properties. -/
def chosenStrings : Bytes :=
  ascii "#address-cells" ++ [0] ++ ascii "compatible" ++ [0] ++ ascii "width" ++ [0] ++
    ascii "height" ++ [0] ++ ascii "stride" ++ [0] ++ ascii "format" ++ [0] ++ ascii "reg" ++ [0]

set_option maxRecDepth 8000 in
/-- A blob of the tree. -/
def chosenBlob : Blob where
  totalSize := 500
  structBlock := structBytes chosenStrings [] chosenTree
  stringsBlock := chosenStrings
  struct_lt := by decide
  strings_lt := by decide

set_option maxRecDepth 8000 in
/-- It is a flattening of the tree. -/
theorem flattens_chosen : Flattens chosenBlob [] chosenTree := flattens_structBytes rfl (by decide)

instance decidableNoOverflow (props : List (Bytes × Bytes)) :
    (c : Cells) → Decidable (c.NoOverflow props) :=
  match props with
  | [] => fun _ => isTrue trivial
  | p :: props => fun c =>
    have := decidableNoOverflow props (c.update p.1 p.2)
    inferInstanceAs (Decidable ((_ → _) ∧ _))

/-- The tree is as the walk needs it. -/
theorem simpleFbTree_chosen : SimpleFbTree chosenTree where
  levels := by decide
  distinct := by decide
  noOverflow := by decide

/-- `find_simplefb` finds the frame buffer that says all. -/
theorem findSimplefb_tree_chosen : findSimplefbIn chosenBlob =
    .ok (some ⟨0x3c100000, 0x2000, 64, 32, 256, .a8r8g8b8⟩) := by
  rw [(findSimplefb_tree flattens_chosen simpleFbTree_chosen).1]
  decide

end Ralix.Dtb
