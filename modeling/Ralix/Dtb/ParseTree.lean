import Mathlib.Data.List.Forall2
import Ralix.Dtb.Parse
import Ralix.Dtb.Tree

/-!
# `parse` on device trees

What `parse` does on a blob of a device tree, as a recursion on the tree. `Items.calls` is the walk in
which a node's context is a copy of its parent's, flagged by the node's name and updated by its
properties in order. `parse_tree` shows that `parse` makes the calls of that walk, for trees of at
most 32 levels whose cell counts do not overflow.

The proof follows the fold of the visitor over the tree. Its invariant (`Open`) is that the entry of
the stack below the depth is the context of the walk, and its frame condition is that the entries
further down stay as they are, so that a node finds its own context again after a child. The fold is
that of the recording visitor, so it also says which calls belong to which property of the tree
(`Records`). `reservedKept_iff` uses that: the entries below `/reserved-memory` become reserved
ranges exactly where nothing marks their node as memory.
-/

namespace Ralix.Dtb

open Lib Mm MemoryMap

/-! ## The walk of the tree -/

/-- The context in which a child with a name begins. -/
def NodeContext.child (ctx : NodeContext) (name : Bytes) : NodeContext :=
  { ctx with
    inReserved := ctx.inReserved || (ascii "reserved-memory").isPrefixOf name
    isMemory := ctx.isMemory || (ascii "memory").isPrefixOf name }

/-- The context after a property. -/
def NodeContext.update (ctx : NodeContext) (name value : Bytes) : NodeContext :=
  if name = ascii "#address-cells" ∧ 4 ≤ value.length then
    { ctx with addrCells := word32 (value.take 4) }
  else if name = ascii "#size-cells" ∧ 4 ≤ value.length then
    { ctx with sizeCells := word32 (value.take 4) }
  else if name = ascii "device_type" then
    { ctx with isMemory := ctx.isMemory || (ascii "memory").isPrefixOf value }
  else ctx

/-- The bytes of an entry of a `reg`. -/
def NodeContext.entryBytes (ctx : NodeContext) : ℕ :=
  ctx.addrCells.toNat * 4 + ctx.sizeCells.toNat * 4

/-- The entry of a `reg` at `pos`: address and size. -/
def NodeContext.entryAt (ctx : NodeContext) (value : Bytes) (pos : ℕ) : UInt64 × UInt64 :=
  (word64 ((value.drop pos).take (ctx.addrCells.toNat * 4)),
    word64 ((value.drop (pos + ctx.addrCells.toNat * 4)).take (ctx.sizeCells.toNat * 4)))

/-- The entries of a `reg` in a context. Where an entry has no bytes, there are none. -/
def NodeContext.entries (ctx : NodeContext) (value : Bytes) : List (UInt64 × UInt64) :=
  (List.range (value.length / ctx.entryBytes)).map fun i => ctx.entryAt value (i * ctx.entryBytes)

/-- The calls for a property in a context. -/
def NodeContext.propCalls (ctx : NodeContext) (name value : Bytes) : List Call :=
  if name = ascii "reg" then (ctx.entries value).flatMap fun e => ctx.call e.1 e.2 else []

/-- The calls of `add_region` for the properties and children of a node, from a context on. -/
def Items.calls : Items → NodeContext → List Call
  | .nil, _ => []
  | .prop name value rest, ctx => ctx.propCalls name value ++ rest.calls (ctx.update name value)
  | .node name items rest, ctx => items.calls (ctx.child name) ++ rest.calls ctx

/-- The calls of `add_region` for a device tree. -/
def treeCalls (root : Bytes) (items : Items) : List Call :=
  items.calls (NodeContext.root.child root)

/-- A property of a device tree: its node's path, as the names from the root on, the properties that
the node and its ancestors have before it, and the context of the walk there. -/
structure TreeProp where
  path : List Bytes
  earlier : List (Bytes × Bytes)
  ctx : NodeContext
  name : Bytes
  value : Bytes

/-- The properties of a node and of the nodes below it, in document order. -/
def Items.props : Items → List Bytes → List (Bytes × Bytes) → NodeContext → List TreeProp
  | .nil, _, _, _ => []
  | .prop name value rest, path, earlier, ctx =>
    ⟨path, earlier, ctx, name, value⟩ ::
      rest.props path (earlier ++ [(name, value)]) (ctx.update name value)
  | .node name items rest, path, earlier, ctx =>
    items.props (path ++ [name]) earlier (ctx.child name) ++ rest.props path earlier ctx

/-- The properties of a device tree, in document order. -/
def treeProps (root : Bytes) (items : Items) : List TreeProp :=
  items.props [root] [] (NodeContext.root.child root)

/-- The property is no `reg`, or the cells fit in it. They do where their sum does not overflow. -/
def TreeProp.Fits (p : TreeProp) : Prop :=
  p.name = ascii "reg" → CellsFit [p.ctx.addrCells, p.ctx.sizeCells] p.value.length

/-- The calls for the property. -/
def TreeProp.calls (p : TreeProp) : List Call := p.ctx.propCalls p.name p.value

/-- The calls of a walk are those for its properties. -/
theorem Items.calls_eq (items : Items) (path : List Bytes) (earlier : List (Bytes × Bytes))
    (ctx : NodeContext) : items.calls ctx = (items.props path earlier ctx).flatMap TreeProp.calls := by
  induction items generalizing path earlier ctx with
  | nil => rfl
  | prop name value rest ih =>
    rw [calls, props, List.flatMap_cons, ← ih]
    rfl
  | node name items rest ih ih' =>
    rw [calls, props, List.flatMap_append, ← ih, ← ih']

/-- The values in a flattening are shorter than `2^32` bytes. -/
theorem Flat.value_lt {strings bytes : Bytes} {items : Items} (h : Flat strings items bytes)
    {path : List Bytes} {earlier : List (Bytes × Bytes)} {ctx : NodeContext} {p : TreeProp}
    (hp : p ∈ items.props path earlier ctx) : p.value.length < 2^32 := by
  induction h generalizing path earlier ctx with
  | nil => cases hp
  | prop n nameoff hname hvalue hpad hrest ih =>
    rw [Items.props, List.mem_cons] at hp
    rcases hp with rfl | hp
    · exact hvalue
    · exact ih hp
  | node n m hname hpad hitems hrest ih ih' =>
    rw [Items.props, List.mem_append] at hp
    rcases hp with hp | hp
    · exact ih hp
    · exact ih' hp

/-! ## One token -/

/-- A property updates the context. -/
theorem NodeContext.prop_eq (ctx : NodeContext) (name value : Bytes) :
    ctx.prop name value = .ok (ctx.update name value) := by
  have haddrType : ascii "#address-cells" ≠ ascii "device_type" := by decide
  have hsizeType : ascii "#size-cells" ≠ ascii "device_type" := by decide
  have hstarts := nameStartsWith_eq value (ascii "memory")
  unfold prop update
  by_cases hlen : 4 ≤ value.length
  · simp only [ge_iff_le, hlen, and_true, if_true, readBeU32_eq hlen, hstarts]
    split_ifs
    · rfl
    · rfl
    · rfl
    · rfl
  · simp only [ge_iff_le, hlen, and_false, if_false, hstarts]
    split_ifs with haddr htype hsize htype
    · exact absurd (haddr.symm.trans htype) haddrType
    · rfl
    · exact absurd (hsize.symm.trans htype) hsizeType
    · rfl
    · rfl
    · rfl

/-- A `reg` leaves the context as it is. -/
theorem NodeContext.update_reg (ctx : NodeContext) (value : Bytes) :
    ctx.update (ascii "reg") value = ctx := by
  have haddr : ascii "reg" ≠ ascii "#address-cells" := by decide
  have hsize : ascii "reg" ≠ ascii "#size-cells" := by decide
  have htype : ascii "reg" ≠ ascii "device_type" := by decide
  rw [update, if_neg (fun h => haddr h.1), if_neg (fun h => hsize h.1), if_neg htype]

/-- The entry at a position is read. -/
theorem regEntry_eq (ctx : NodeContext) {value : Bytes} {pos : ℕ}
    (h : pos + ctx.entryBytes ≤ value.length) :
    regEntry ctx value ctx.entryBytes pos = .ok (ctx.entryAt value pos) := by
  have heq : ctx.entryBytes = ctx.addrCells.toNat * 4 + ctx.sizeCells.toNat * 4 := rfl
  have haddr : ((value.drop pos).take (ctx.addrCells.toNat * 4)).length = ctx.addrCells.toNat * 4 := by
    rw [List.length_take, List.length_drop]
    omega
  have hsize : ((value.drop (pos + ctx.addrCells.toNat * 4)).take (ctx.sizeCells.toNat * 4)).length =
      ctx.sizeCells.toNat * 4 := by
    rw [List.length_take, List.length_drop]
    omega
  rw [regEntry, slice_ok (by omega) (by omega), Exec.ok_bind, Nat.add_sub_cancel_left,
    readCells_eq haddr, Exec.ok_bind, slice_ok (by omega) h, Exec.ok_bind,
    show pos + ctx.entryBytes - (pos + ctx.addrCells.toNat * 4) = ctx.sizeCells.toNat * 4 by omega,
    readCells_eq hsize]
  rfl

/-- The loop over the entries from the `k`-th on. -/
theorem regLoop_eq (ctx : NodeContext) (value : Bytes) (hpos : 0 < ctx.entryBytes) {n k m : ℕ}
    (hm : k + m = value.length / ctx.entryBytes) (hn : m ≤ n) (calls : List Call) :
    regLoop ctx value ctx.entryBytes n (k * ctx.entryBytes) calls =
      .ok (calls ++ ((List.range' k m).map fun i => ctx.entryAt value (i * ctx.entryBytes)).flatMap
        fun e => ctx.call e.1 e.2) := by
  induction n generalizing k m calls with
  | zero =>
    obtain rfl : m = 0 := by omega
    rw [regLoop, List.range'_zero, List.map_nil, List.flatMap_nil, List.append_nil]
  | succ n ih =>
    cases m with
    | zero =>
      have hend : ¬k * ctx.entryBytes + ctx.entryBytes ≤ value.length := by
        rw [entry_fits_iff hpos]
        omega
      rw [regLoop, if_neg hend, List.range'_zero, List.map_nil, List.flatMap_nil, List.append_nil]
    | succ m =>
      have hentry : k * ctx.entryBytes + ctx.entryBytes ≤ value.length := by
        rw [entry_fits_iff hpos]
        omega
      rw [regLoop, if_pos hentry, regEntry_eq ctx hentry, Exec.ok_bind]
      dsimp only
      rw [← Nat.succ_mul, Nat.succ_eq_add_one, ih (k := k + 1) (m := m) (by omega) (by omega),
        List.range'_succ, List.map_cons, List.flatMap_cons, List.append_assoc]

/-- `parse` makes the calls for the entries of a `reg` in which the cells fit. -/
theorem parseReg_eq (ctx : NodeContext) {value : Bytes} (hvalue : value.length < 2^32)
    (h : CellsFit [ctx.addrCells, ctx.sizeCells] value.length) (calls : List Call) :
    parseReg ctx value calls =
      .ok (calls ++ (ctx.entries value).flatMap fun e => ctx.call e.1 e.2) := by
  have heq : ctx.entryBytes = ctx.addrCells.toNat * 4 + ctx.sizeCells.toNat * 4 := rfl
  have hsum := UInt32.toNat_add ctx.addrCells ctx.sizeCells
  simp only [CellsFit, List.map_cons, List.map_nil, List.sum_cons, List.sum_nil, Nat.add_zero] at h
  unfold parseReg
  dsimp only
  by_cases hnone : value.length / ctx.entryBytes = 0
  · -- No entry fits, so whatever the wrapped sum is, the loop is not entered.
    have hentries : ctx.entries value = [] := by
      rw [NodeContext.entries, hnone]
      rfl
    rw [hentries, List.flatMap_nil, List.append_nil]
    split
    · rfl
    · have hlt := (Nat.div_eq_zero_iff.mp hnone).resolve_left (by omega)
      cases hlength : value.length with
      | zero => rfl
      | succ n =>
        rw [regLoop, if_neg (by omega)]
  · have hdiv : ¬(ctx.entryBytes = 0 ∨ value.length < ctx.entryBytes) := fun h =>
      hnone (Nat.div_eq_zero_iff.mpr h)
    have hbytes : (ctx.addrCells + ctx.sizeCells).toNat * 4 = ctx.entryBytes := by omega
    have hpos : 0 < ctx.entryBytes := by omega
    have hcount : value.length / ctx.entryBytes ≤ value.length := Nat.div_le_self _ _
    rw [if_neg (by omega), hbytes]
    have hloop := regLoop_eq ctx value hpos (k := 0) (Nat.zero_add _) hcount calls
    rw [Nat.zero_mul] at hloop
    rw [hloop, NodeContext.entries, List.range_eq_range']

/-! ## The fold -/

/-- A node is open, at the depth, in a context. -/
structure ParseState.Open (s : ParseState) (ctx : NodeContext) : Prop where
  length : s.stack.length = 32
  pos : 0 < s.depth
  ctx : s.stack[s.depth - 1]? = some ctx

/-- What a walk has done at a property of the tree. -/
structure Records (p : TreeProp) (v : Visit ParseState) : Prop where
  name : v.name = p.name
  value : v.value = p.value
  calls : v.after.calls = v.before.calls ++ p.calls

/-- The state after a property of an open node. -/
def ParseState.afterProp (s : ParseState) (ctx : NodeContext) (name value : Bytes) : ParseState :=
  ⟨s.stack.set (s.depth - 1) (ctx.update name value), s.depth, s.calls ++ ctx.propCalls name value⟩

/-- The node is open after a property, in the updated context. -/
theorem ParseState.Open.afterProp {s : ParseState} {ctx : NodeContext} (h : s.Open ctx)
    (name value : Bytes) : (s.afterProp ctx name value).Open (ctx.update name value) := by
  refine ⟨List.length_set.trans h.length, h.pos, ?_⟩
  have hlt : s.depth - 1 < s.stack.length := (List.getElem?_eq_some_iff.mp h.ctx).1
  show (s.stack.set (s.depth - 1) _)[s.depth - 1]? = _
  rw [List.getElem?_set_self hlt]

/-- `parse` at a property of an open node. -/
theorem parseProp_eq {s : ParseState} {ctx : NodeContext} (h : s.Open ctx) {name value : Bytes}
    (hvalue : value.length < 2^32)
    (hfit : name = ascii "reg" → CellsFit [ctx.addrCells, ctx.sizeCells] value.length) :
    parseProp name value s = .ok (.next (s.afterProp ctx name value)) := by
  have hpos := h.pos
  obtain ⟨hlt, hctx⟩ := List.getElem?_eq_some_iff.mp h.ctx
  have hindex : index s.stack (s.depth - 1) = .ok ctx := by rw [index_ok hlt, hctx]
  rw [parseProp, if_neg (by omega), hindex, Exec.ok_bind]
  by_cases hreg : name = ascii "reg"
  · have hset : s.stack.set (s.depth - 1) ctx = s.stack := by
      rw [← hctx]
      exact List.set_getElem_self hlt
    rw [if_pos hreg, parseReg_eq ctx hvalue (hfit hreg), Exec.ok_bind, ParseState.afterProp, hreg,
      NodeContext.update_reg, hset, NodeContext.propCalls, if_pos rfl]
    rfl
  · rw [if_neg hreg, NodeContext.prop_eq, Exec.ok_bind, setIndex_ok hlt, Exec.ok_bind,
      ParseState.afterProp, NodeContext.propCalls, if_neg hreg, List.append_nil]
    rfl

/-- The state in a child of an open node, or in the root. -/
def ParseState.inside (s : ParseState) (ctx : NodeContext) : ParseState :=
  ⟨s.stack.set s.depth ctx, s.depth + 1, s.calls⟩

/-- The child is open in its context. -/
theorem ParseState.open_inside {s : ParseState} (hlen : s.stack.length = 32) (hlt : s.depth < 32)
    (ctx : NodeContext) : (s.inside ctx).Open ctx := by
  refine ⟨List.length_set.trans hlen, Nat.succ_pos _, ?_⟩
  show (s.stack.set s.depth ctx)[s.depth + 1 - 1]? = _
  rw [Nat.add_sub_cancel, List.getElem?_set_self (by omega)]

/-- `parse` at the beginning of a child of an open node. -/
theorem parseBegin_eq {s : ParseState} {ctx : NodeContext} (h : s.Open ctx) (hlt : s.depth < 32)
    (name : Bytes) : parseBegin name s = .ok (s.inside (ctx.child name)) := by
  have hpos := h.pos
  have hlen := h.length
  obtain ⟨hle, hctx⟩ := List.getElem?_eq_some_iff.mp h.ctx
  have hparent : parentOf s.stack s.depth = .ok ctx := by
    rw [parentOf, if_neg (by omega), index_ok hle, hctx]
  rw [parseBegin, hparent, Exec.ok_bind, NodeContext.enter_eq, Exec.ok_bind, if_pos (by omega),
    setIndex_ok (by omega)]
  rfl

/-- `parse` at the beginning of the root. -/
theorem parseBegin_root (root : Bytes) : parseBegin root ParseState.start =
    .ok (ParseState.start.inside (NodeContext.root.child root)) := by
  have hparent : parentOf ParseState.start.stack ParseState.start.depth = .ok NodeContext.root := rfl
  rw [parseBegin, hparent, Exec.ok_bind, NodeContext.enter_eq, Exec.ok_bind, if_pos (by decide),
    setIndex_ok (by decide)]
  rfl

/-- The recording visitor at a property. -/
theorem logged_prop {s t : ParseState} {name value : Bytes} (h : parseProp name value s = .ok (.next t))
    (log : List (Visit ParseState)) : parseVisitor.logged.prop name value (s, log) =
      .ok (.next (t, log ++ [⟨name, value, s, t⟩])) := by
  show (parseProp name value s >>= _) = _
  rw [h]
  rfl

/-- The recording visitor at the beginning of a node. -/
theorem logged_begin {s t : ParseState} {name : Bytes} (h : parseBegin name s = .ok t)
    (log : List (Visit ParseState)) : parseVisitor.logged.beginNode name (s, log) = .ok (t, log) := by
  show (parseBegin name s >>= _) = _
  rw [h]
  rfl

/-- The properties and children of an open node, if the cells fit: the calls are those of the walk,
the record is of the properties in order, and the contexts of the nodes around it are kept. -/
theorem fold_parse (items : Items) {path : List Bytes} {earlier : List (Bytes × Bytes)}
    {ctx : NodeContext} {s : ParseState} (hopen : s.Open ctx) (hdepth : s.depth + items.height ≤ 32)
    (hvalue : ∀ p ∈ items.props path earlier ctx, p.value.length < 2^32)
    (hfit : ∀ p ∈ items.props path earlier ctx, p.Fits) (log : List (Visit ParseState)) :
    ∃ stack visits, parseVisitor.logged.fold items (s, log) =
        .ok (.next (⟨stack, s.depth, s.calls ++ items.calls ctx⟩, log ++ visits)) ∧
      stack.length = 32 ∧ (∀ i, i + 1 < s.depth → stack[i]? = s.stack[i]?) ∧
      List.Forall₂ Records (items.props path earlier ctx) visits := by
  induction items generalizing path earlier ctx s log with
  | nil =>
    refine ⟨s.stack, [], ?_, hopen.length, fun _ _ => rfl, .nil⟩
    rw [Visitor.fold, Items.calls, List.append_nil, List.append_nil]
  | prop name value rest ih =>
    rw [Items.props, List.forall_mem_cons] at hvalue hfit
    have hstep := parseProp_eq hopen hvalue.1 hfit.1
    obtain ⟨stack, visits, hfold, hlen, hframe, hrecords⟩ := ih (hopen.afterProp name value) hdepth
      hvalue.2 hfit.2 (log ++ [⟨name, value, s, s.afterProp ctx name value⟩])
    refine ⟨stack, ⟨name, value, s, s.afterProp ctx name value⟩ :: visits, ?_, hlen, ?_, ?_⟩
    · rw [Visitor.fold, logged_prop hstep]
      show parseVisitor.logged.fold rest _ = _
      rw [hfold, ParseState.afterProp, Items.calls, List.append_assoc, List.append_assoc]
      rfl
    · intro i hi
      rw [hframe i hi, ParseState.afterProp]
      exact List.getElem?_set_ne (by omega)
    · exact .cons ⟨rfl, rfl, rfl⟩ hrecords
  | node name items rest ih ih' =>
    rw [Items.props, List.forall_mem_append] at hvalue hfit
    rw [Items.height] at hdepth
    have hlt : s.depth < 32 := by omega
    have hpos := hopen.pos
    have hstep := parseBegin_eq hopen hlt name
    have hinside : (s.inside (ctx.child name)).depth = s.depth + 1 := rfl
    obtain ⟨stack, visits, hfold, hlen, hframe, hrecords⟩ :=
      ih (ParseState.open_inside hopen.length hlt (ctx.child name)) (by omega) hvalue.1 hfit.1 log
    -- After the child, the node is open in its own context again.
    have hafter : ParseState.Open ⟨stack, s.depth, s.calls ++ items.calls (ctx.child name)⟩ ctx := by
      refine ⟨hlen, hpos, ?_⟩
      show stack[s.depth - 1]? = _
      rw [hframe _ (by omega), ParseState.inside, List.getElem?_set_ne (by omega), hopen.ctx]
    obtain ⟨stack', visits', hfold', hlen', hframe', hrecords'⟩ :=
      ih' hafter (by dsimp only; omega) hvalue.2 hfit.2 (log ++ visits)
    refine ⟨stack', visits ++ visits', ?_, hlen', ?_, ?_⟩
    · rw [Visitor.fold, logged_begin hstep, Exec.ok_bind, hfold]
      show andThen (parseVisitor.logged.endNode (⟨stack, s.depth + 1, _⟩, _)) _ = _
      show parseVisitor.logged.fold rest
        (⟨stack, s.depth, s.calls ++ items.calls (ctx.child name)⟩, log ++ visits) = _
      rw [hfold', Items.calls, List.append_assoc, List.append_assoc]
    · intro i hi
      dsimp only at hframe'
      rw [hframe' i hi, hframe i (by omega), ParseState.inside, List.getElem?_set_ne (by omega)]
    · rw [Items.props]
      exact List.rel_append hrecords hrecords'

/-- The cells fit in every `reg` of an open node's properties and children, if `parse` gets through
them. -/
theorem fits_of_fold (items : Items) {path : List Bytes} {earlier : List (Bytes × Bytes)}
    {ctx : NodeContext} {s : ParseState} (hopen : s.Open ctx) (hdepth : s.depth + items.height ≤ 32)
    (hvalue : ∀ p ∈ items.props path earlier ctx, p.value.length < 2^32)
    {log : List (Visit ParseState)} {i : Iter (ParseState × List (Visit ParseState))
      (List Call × List (Visit ParseState))}
    (h : parseVisitor.logged.fold items (s, log) = .ok i) :
    ∀ p ∈ items.props path earlier ctx, p.Fits := by
  induction items generalizing path earlier ctx s log i with
  | nil => exact List.forall_mem_nil _
  | prop name value rest ih =>
    rw [Items.props, List.forall_mem_cons] at hvalue ⊢
    rw [Visitor.fold] at h
    obtain ⟨j, hj, h⟩ := Exec.bind_eq_ok.mp h
    obtain ⟨k, hk, -⟩ := Exec.bind_eq_ok.mp hj
    have hinv : s.Inv := ⟨hopen.length, (Nat.le_add_right _ _).trans hdepth⟩
    have hfit : name = ascii "reg" → CellsFit [ctx.addrCells, ctx.sizeCells] value.length :=
      fun hreg => (parseProp_ok_iff hinv name value).mp ⟨k, hk⟩ hreg ctx hopen.pos hopen.ctx
    rw [logged_prop (parseProp_eq hopen hvalue.1 hfit)] at hj
    cases hj
    exact ⟨hfit, ih (hopen.afterProp name value) hdepth hvalue.2 h⟩
  | node name items rest ih ih' =>
    rw [Items.props, List.forall_mem_append] at hvalue ⊢
    rw [Items.height] at hdepth
    have hlt : s.depth < 32 := by omega
    have hpos := hopen.pos
    have hinside : (s.inside (ctx.child name)).depth = s.depth + 1 := rfl
    have hchild := ParseState.open_inside hopen.length hlt (ctx.child name)
    rw [Visitor.fold, logged_begin (parseBegin_eq hopen hlt name), Exec.ok_bind] at h
    obtain ⟨j, hj, h⟩ := Exec.bind_eq_ok.mp h
    obtain ⟨k, hk, -⟩ := Exec.bind_eq_ok.mp hj
    have hfit := ih hchild (by omega) hvalue.1 hk
    obtain ⟨stack, visits, hfold, hlen, hframe, -⟩ :=
      fold_parse items hchild (by omega) hvalue.1 hfit log
    rw [hfold] at hj
    cases hj
    have hafter : ParseState.Open ⟨stack, s.depth, s.calls ++ items.calls (ctx.child name)⟩ ctx := by
      refine ⟨hlen, hpos, ?_⟩
      show stack[s.depth - 1]? = _
      rw [hframe _ (by omega), ParseState.inside, List.getElem?_set_ne (by omega), hopen.ctx]
    -- the child has left the stack below it alone, so the walk goes on in the node around
    have hrest : parseVisitor.logged.fold rest
        (⟨stack, s.depth, s.calls ++ items.calls (ctx.child name)⟩, log ++ visits) = .ok i := h
    exact ⟨hfit, ih' hafter (by dsimp only; omega) hvalue.2 hrest⟩

/-! ## A tree with a carve-out named `memory` -/

/-- One entry: a MiB at 1 GiB. -/
def carveOut : Bytes := [0, 0, 0, 0, 0x40, 0, 0, 0, 0, 0, 0, 0, 0, 0x10, 0, 0]

/-- `/reserved-memory/memory@40000000`, with a `reg`. -/
def carveOutTree : Items :=
  .node (ascii "reserved-memory")
    (.node (ascii "memory@40000000") (.prop (ascii "reg") carveOut .nil) .nil) .nil

/-- A blob of the tree. -/
def carveOutBlob : Blob where
  totalSize := 136
  structBlock := structBytes (ascii "reg" ++ [0]) [] carveOutTree
  stringsBlock := ascii "reg" ++ [0]
  struct_lt := by decide
  strings_lt := by decide

/-- It is a flattening of the tree. -/
theorem flattens_carveOut : Flattens carveOutBlob [] carveOutTree :=
  flattens_structBytes rfl (by decide)

/-- The tree's one property. -/
def carveOutProp : TreeProp where
  path := [[], ascii "reserved-memory", ascii "memory@40000000"]
  earlier := []
  ctx := ⟨2, 2, true, true⟩
  name := ascii "reg"
  value := carveOut

/-- The tree has no other property. -/
theorem treeProps_carveOut : treeProps [] carveOutTree = [carveOutProp] := rfl

/-- The cells fit in it. -/
theorem fits_carveOut : ∀ p ∈ treeProps [] carveOutTree, p.Fits := by
  rw [treeProps_carveOut, List.forall_mem_singleton]
  exact fun _ => by decide

/-! ## The calls -/

section Trees

variable {b : Blob} {root : Bytes} {items : Items}

/-- `parse` with the record of what it does at the properties. -/
def parseVisits (b : Blob) : Exec (List Call × List (Visit ParseState)) :=
  walk b parseVisitor.logged (ParseState.start, [])

/-- The record does not change the calls. -/
theorem parseCalls_eq_visits (b : Blob) : parseCalls b = (parseVisits b).map Prod.fst :=
  walk_logged ParseState.start []

/-- The root of a tree, before its properties and children. -/
theorem open_root (root : Bytes) :
    (ParseState.start.inside (NodeContext.root.child root)).Open (NodeContext.root.child root) :=
  ParseState.open_inside (by decide) (by decide) _

/-- The values of a flattened tree are shorter than `2^32` bytes. -/
theorem Flattens.value_lt (h : Flattens b root items) :
    ∀ p ∈ treeProps root items, p.value.length < 2^32 := by
  intro p hp
  obtain ⟨bytes, n, trailing, hflat, -⟩ := h
  have hmem : p ∈ (Items.node root items Items.nil).props [] [] NodeContext.root := by
    rw [Items.props, List.mem_append]
    exact .inl hp
  exact hflat.value_lt hmem

/-- `parse` on a blob of a tree is the fold over the tree. -/
theorem parseVisits_eq (h : Flattens b root items) : parseVisits b =
    andThen (parseVisitor.logged.fold items
        (ParseState.start.inside (NodeContext.root.child root), [])) parseVisitor.logged.endNode >>=
      Loop.after fun s => .ok (s.1.calls, s.2) := by
  rw [parseVisits, walk_flattens h, Visitor.fold, logged_begin (parseBegin_root root), Exec.ok_bind,
    andThen_after]
  rfl

/-- `parse` on a blob of a tree in which the cells fit makes the calls of the walk, and comes to the
properties in document order. -/
theorem parseVisits_ok (h : Flattens b root items) (hheight : items.height + 1 ≤ 32)
    (hfit : ∀ p ∈ treeProps root items, p.Fits) :
    ∃ visits, parseVisits b = .ok (treeCalls root items, visits) ∧
      List.Forall₂ Records (treeProps root items) visits := by
  obtain ⟨stack, visits, hfold, -, -, hrecords⟩ := fold_parse items (open_root root)
    (by show 0 + 1 + items.height ≤ 32; omega) h.value_lt hfit []
  refine ⟨visits, ?_, hrecords⟩
  rw [parseVisits_eq h, hfold]
  rfl

/-- The cells fit in a tree, if `parse` gets through a blob of it. -/
theorem fits_of_parseVisits (h : Flattens b root items) (hheight : items.height + 1 ≤ 32)
    {r : List Call × List (Visit ParseState)} (hr : parseVisits b = .ok r) :
    ∀ p ∈ treeProps root items, p.Fits := by
  rw [parseVisits_eq h] at hr
  obtain ⟨i, hi, -⟩ := Exec.bind_eq_ok.mp hr
  obtain ⟨j, hj, -⟩ := Exec.bind_eq_ok.mp hi
  exact fits_of_fold items (open_root root) (by show 0 + 1 + items.height ≤ 32; omega) h.value_lt hj

/-- `parse` makes the calls of the walk of the tree, for every tree of at most 32 levels in which the
cells fit. -/
theorem parse_tree (h : Flattens b root items) (hheight : items.height + 1 ≤ 32)
    (hfit : ∀ p ∈ treeProps root items, p.Fits) :
    parseCalls b = .ok (treeCalls root items) ∧ ∀ mem dtbPa map, dtbPa ≠ 0 →
      readHeader mem dtbPa = .ok (some b) →
        parse mem dtbPa map = .ok (some ⟨b.totalSize⟩, map.addAll (treeCalls root items)) := by
  obtain ⟨visits, hvisits, -⟩ := parseVisits_ok h hheight hfit
  have hcalls : parseCalls b = .ok (treeCalls root items) := by
    rw [parseCalls_eq_visits, hvisits]
    rfl
  refine ⟨hcalls, fun mem dtbPa map hpa hheader => ?_⟩
  rw [parse, if_neg hpa, hheader, Exec.ok_bind]
  dsimp only
  rw [hcalls]
  rfl

/-- `parse` makes one call for the tree with the carve-out: it registers that as usable memory. -/
theorem parse_tree_carveOut : parseCalls carveOutBlob = .ok [⟨0x40000000, 0x100000, .usableRam⟩] :=
  (parse_tree flattens_carveOut (by decide) fits_carveOut).1

/-! ## Reserved memory -/

/-- The node is below `/reserved-memory`. -/
def TreeProp.BelowReserved (p : TreeProp) : Prop :=
  ∃ root child rest, p.path = root :: ascii "reserved-memory" :: child :: rest

/-- A name on the path, or a `device_type` that comes before and that the node inherits or has,
starts with `memory`. -/
def Marked (path : List Bytes) (earlier : List (Bytes × Bytes)) : Prop :=
  (∃ name ∈ path, ascii "memory" <+: name) ∨
    ∃ q ∈ earlier, q.1 = ascii "device_type" ∧ ascii "memory" <+: q.2

/-- The flags of a context are those of the path and of the properties before. -/
structure NodeContext.Flags (ctx : NodeContext) (path : List Bytes) (earlier : List (Bytes × Bytes)) :
    Prop where
  reserved : ctx.inReserved = true ↔ ∃ name ∈ path, ascii "reserved-memory" <+: name
  memory : ctx.isMemory = true ↔ Marked path earlier

/-- A child's flags. -/
theorem NodeContext.Flags.child {ctx : NodeContext} {path : List Bytes} {earlier : List (Bytes × Bytes)}
    (h : ctx.Flags path earlier) (name : Bytes) : (ctx.child name).Flags (path ++ [name]) earlier := by
  refine ⟨?_, ?_⟩
  · show (ctx.inReserved || _) = true ↔ _
    rw [Bool.or_eq_true, h.reserved, List.isPrefixOf_iff_prefix]
    simp only [List.mem_append, List.mem_singleton, or_and_right, exists_or, exists_eq_left]
  · show (ctx.isMemory || _) = true ↔ _
    rw [Bool.or_eq_true, h.memory, List.isPrefixOf_iff_prefix, Marked, Marked]
    simp only [List.mem_append, List.mem_singleton, or_and_right, exists_or, exists_eq_left]
    exact or_right_comm

/-- The flags after a property. -/
theorem NodeContext.Flags.update {ctx : NodeContext} {path : List Bytes}
    {earlier : List (Bytes × Bytes)} (h : ctx.Flags path earlier) (name value : Bytes) :
    (ctx.update name value).Flags path (earlier ++ [(name, value)]) := by
  have hmemory : (ctx.update name value).isMemory = true ↔ ctx.isMemory = true ∨
      name = ascii "device_type" ∧ ascii "memory" <+: value := by
    have haddr : ascii "#address-cells" ≠ ascii "device_type" := by decide
    have hsize : ascii "#size-cells" ≠ ascii "device_type" := by decide
    unfold NodeContext.update
    split_ifs with h1 h2 h3
    · simp [h1.1, haddr]
    · simp [h2.1, hsize]
    · simp [h3]
    · simp [h3]
  have hreserved : (ctx.update name value).inReserved = ctx.inReserved := by
    unfold NodeContext.update
    split_ifs
    · rfl
    · rfl
    · rfl
    · rfl
  refine ⟨by rw [hreserved, h.reserved], ?_⟩
  rw [hmemory, h.memory, Marked, Marked]
  simp only [List.mem_append, List.mem_singleton, or_and_right, exists_or, exists_eq_left]
  exact or_assoc

/-- The flags at the properties of a walk. -/
theorem Items.props_flags (items : Items) {path : List Bytes} {earlier : List (Bytes × Bytes)}
    {ctx : NodeContext} (h : ctx.Flags path earlier) :
    ∀ p ∈ items.props path earlier ctx, p.ctx.Flags p.path p.earlier := by
  induction items generalizing path earlier ctx with
  | nil => exact List.forall_mem_nil _
  | prop name value rest ih =>
    rw [Items.props, List.forall_mem_cons]
    exact ⟨h, ih (h.update name value)⟩
  | node name items rest ih ih' =>
    rw [Items.props, List.forall_mem_append]
    exact ⟨ih (h.child name), ih' h⟩

/-- The flags at the properties of a tree. -/
theorem treeProps_flags (root : Bytes) (items : Items) :
    ∀ p ∈ treeProps root items, p.ctx.Flags p.path p.earlier := by
  have hroot : NodeContext.root.Flags [] [] := ⟨by simp [NodeContext.root], by
    simp [NodeContext.root, Marked]⟩
  exact items.props_flags (hroot.child root)

/-- The entries of the property's value, registered as reserved. -/
def TreeProp.reservedCalls (p : TreeProp) : List Call :=
  (p.ctx.entries p.value).map fun e => ⟨e.1, e.2, .reserved⟩

/-- At the property, if it is a `reg` below `/reserved-memory`, `parse` has registered its entries,
each once and in order, as reserved, and nothing else. -/
structure KeepsReserved (p : TreeProp) (v : Visit ParseState) : Prop where
  name : v.name = p.name
  value : v.value = p.value
  calls : p.name = ascii "reg" → p.BelowReserved → v.after.calls = v.before.calls ++ p.reservedCalls

/-- `parse` gets through the blob of the tree, and registers every entry of every `reg` below
`/reserved-memory` as reserved. -/
def ReservedKept (b : Blob) (root : Bytes) (items : Items) : Prop :=
  ∃ calls visits, parseVisits b = .ok (calls, visits) ∧
    List.Forall₂ KeepsReserved (treeProps root items) visits

/-- What `parse` registers is a matter of the walk's calls. -/
theorem keepsReserved_iff {ps : List TreeProp} {visits : List (Visit ParseState)}
    (h : List.Forall₂ Records ps visits) : List.Forall₂ KeepsReserved ps visits ↔
      ∀ p ∈ ps, p.name = ascii "reg" → p.BelowReserved → p.calls = p.reservedCalls := by
  induction h with
  | nil => exact ⟨fun _ => List.forall_mem_nil _, fun _ => .nil⟩
  | @cons p v ps visits hp hrest ih =>
    rw [List.forall₂_cons, List.forall_mem_cons, ih]
    refine and_congr_left fun _ => ⟨fun hkeep hreg hbelow => ?_, fun hcalls => ?_⟩
    · exact List.append_cancel_left (hp.calls.symm.trans (hkeep.calls hreg hbelow))
    · exact ⟨hp.name, hp.value, fun hreg hbelow => by rw [hp.calls, hcalls hreg hbelow]⟩

/-- The entries below `/reserved-memory` are registered as reserved exactly if there are none or
nothing marks the node as memory. -/
theorem TreeProp.calls_reserved_iff {p : TreeProp} (hflags : p.ctx.Flags p.path p.earlier)
    (hreg : p.name = ascii "reg") (hbelow : p.BelowReserved) :
    p.calls = p.reservedCalls ↔ (p.ctx.entries p.value ≠ [] → ¬Marked p.path p.earlier) := by
  have hreserved : p.ctx.inReserved = true := by
    obtain ⟨root, child, rest, hpath⟩ := hbelow
    refine hflags.reserved.mpr ⟨ascii "reserved-memory", ?_, List.prefix_refl _⟩
    rw [hpath]
    exact List.mem_cons_of_mem _ List.mem_cons_self
  have hcall : ∀ e : UInt64 × UInt64, p.ctx.call e.1 e.2 =
      [⟨e.1, e.2, if p.ctx.isMemory then .usableRam else .reserved⟩] := by
    intro e
    unfold NodeContext.call
    rw [hreserved]
    split
    · rfl
    · rfl
  have hcalls : p.calls = (p.ctx.entries p.value).map fun e =>
      ⟨e.1, e.2, if p.ctx.isMemory then .usableRam else .reserved⟩ := by
    rw [calls, NodeContext.propCalls, if_pos hreg, List.map_eq_flatMap]
    exact List.flatMap_congr fun e _ => hcall e
  rw [hcalls, reservedCalls, ← hflags.memory]
  cases hentries : p.ctx.entries p.value with
  | nil => exact ⟨fun _ h => absurd rfl h, fun _ => rfl⟩
  | cons e es =>
    cases hmemory : p.ctx.isMemory with
    | false => exact ⟨fun _ _ h => absurd h (by decide), fun _ => rfl⟩
    | true => exact ⟨fun h => by simp at h, fun h => absurd rfl (h (by simp))⟩

/-- `parse` registers the ranges below `/reserved-memory` as reserved exactly if the cells fit in
every `reg` of the tree, and nothing marks as memory a node below `/reserved-memory` that has a
`reg` with an entry. -/
theorem reservedKept_iff (h : Flattens b root items) (hheight : items.height + 1 ≤ 32) :
    ReservedKept b root items ↔ ∀ p ∈ treeProps root items, p.name = ascii "reg" →
      CellsFit [p.ctx.addrCells, p.ctx.sizeCells] p.value.length ∧
        (p.BelowReserved → p.ctx.entries p.value ≠ [] → ¬Marked p.path p.earlier) := by
  constructor
  · rintro ⟨calls, visits, hvisits, hkeeps⟩
    have hfit := fits_of_parseVisits h hheight hvisits
    obtain ⟨visits', hvisits', hrecords⟩ := parseVisits_ok h hheight hfit
    rw [hvisits] at hvisits'
    cases hvisits'
    intro p hp hreg
    refine ⟨hfit p hp hreg, fun hbelow => ?_⟩
    have hcalls := (keepsReserved_iff hrecords).mp hkeeps p hp hreg hbelow
    exact (TreeProp.calls_reserved_iff (treeProps_flags root items p hp) hreg hbelow).mp hcalls
  · intro hcond
    obtain ⟨visits, hvisits, hrecords⟩ :=
      parseVisits_ok h hheight fun p hp hreg => (hcond p hp hreg).1
    refine ⟨_, visits, hvisits, (keepsReserved_iff hrecords).mpr fun p hp hreg hbelow => ?_⟩
    exact (TreeProp.calls_reserved_iff (treeProps_flags root items p hp) hreg hbelow).mpr
      ((hcond p hp hreg).2 hbelow)

/-- For the tree with the carve-out, the condition fails. -/
theorem reservedKept_iff_carveOut : ¬ReservedKept carveOutBlob [] carveOutTree := by
  rw [reservedKept_iff flattens_carveOut (by decide), treeProps_carveOut, List.forall_mem_singleton]
  intro h
  refine (h rfl).2 ⟨_, _, _, rfl⟩ (by decide) (.inl ⟨ascii "memory@40000000", ?_, by decide⟩)
  exact List.mem_cons_of_mem _ (List.mem_cons_of_mem _ List.mem_cons_self)

/-- `parse` registers ranges below `/reserved-memory` as usable. -/
theorem not_reservedKept : ¬∀ b root items, Flattens b root items → items.height + 1 ≤ 32 →
    ReservedKept b root items := by
  intro h
  obtain ⟨calls, visits, hvisits, hkeeps⟩ := h _ _ _ flattens_carveOut (by decide)
  obtain ⟨visits', hvisits', hrecords⟩ :=
    parseVisits_ok flattens_carveOut (by decide) fits_carveOut
  rw [hvisits] at hvisits'
  cases hvisits'
  have hcalls := (keepsReserved_iff hrecords).mp hkeeps carveOutProp
    (by rw [treeProps_carveOut]; exact List.mem_singleton_self _) rfl ⟨_, _, _, rfl⟩
  exact absurd hcalls (by decide)

end Trees

end Ralix.Dtb
