import Ralix.Dtb.Reads
import Ralix.Dtb.RegTree

/-!
# The cell counts of a `reg`

A `reg` is written with the cell counts that the node's parent declares, and the counts that the node
declares itself are for its children. The walks keep one entry for both: a node's entry begins as a copy
of its parent's, and `#address-cells` and `#size-cells` of the node overwrite it. So a `reg` is decoded
with the parent's counts exactly if the node has not declared others before it (`regsByParent_iff`).
-/

namespace Ralix.Dtb

open Lib

/-! ## Declarations -/

/-- The count that properties declare under a name: the last one that is long enough. -/
def declared (name : Bytes) (props : List (Bytes × Bytes)) : Option UInt32 :=
  (props.filter fun p => p.1 = name ∧ 4 ≤ p.2.length).getLast?.map fun p => word32 (p.2.take 4)

/-- The last declaration counts. -/
theorem declared_concat (name : Bytes) (props : List (Bytes × Bytes)) (p : Bytes × Bytes) :
    declared name (props ++ [p]) =
      if p.1 = name ∧ 4 ≤ p.2.length then some (word32 (p.2.take 4)) else declared name props := by
  unfold declared
  rw [List.filter_append, List.filter_singleton]
  split_ifs with h
  · rw [decide_eq_true h, cond_true, List.getLast?_concat]
    rfl
  · rw [decide_eq_false h, cond_false, List.append_nil]

/-- The cell counts after some properties are those that they declare, or those before. -/
theorem Cells.after_eq (c : Cells) (props : List (Bytes × Bytes)) : c.after props =
    ⟨(declared (ascii "#address-cells") props).getD c.addr,
      (declared (ascii "#size-cells") props).getD c.size⟩ := by
  have hne : ascii "#address-cells" ≠ ascii "#size-cells" := by decide
  induction props using List.reverseRecOn with
  | nil => rfl
  | append_singleton props p ih =>
    rw [after, List.foldl_concat, declared_concat, declared_concat]
    change Cells.update (c.after props) p.1 p.2 = _
    rw [ih, update]
    by_cases haddr : p.1 = ascii "#address-cells" ∧ 4 ≤ p.2.length
    · have hsize : ¬(p.1 = ascii "#size-cells" ∧ 4 ≤ p.2.length) := fun h =>
        hne (haddr.1.symm.trans h.1)
      rw [if_pos haddr, if_pos haddr, if_neg hsize]
      rfl
    · rw [if_neg haddr, if_neg haddr]
      split
      · rfl
      · rfl

/-- The cell counts that the parent declares, if there is a parent and it declares both. -/
def Place.parentCells (p : Place) : Option Cells := do
  let props ← p.parent
  let addr ← declared (ascii "#address-cells") props
  let size ← declared (ascii "#size-cells") props
  return ⟨addr, size⟩

/-- What the node itself declares before a place agrees with some counts. -/
structure Place.Agrees (p : Place) (c : Cells) : Prop where
  addr : ∀ n ∈ declared (ascii "#address-cells") p.before, n = c.addr
  size : ∀ n ∈ declared (ascii "#size-cells") p.before, n = c.size

/-- The node's declarations leave the counts as they are exactly if they agree with them. -/
theorem Place.agrees_iff (p : Place) (c : Cells) : p.Agrees c ↔ c.after p.before = c := by
  rw [Cells.after_eq]
  constructor
  · rintro ⟨haddr, hsize⟩
    have haddr' : (declared (ascii "#address-cells") p.before).getD c.addr = c.addr := by
      cases hd : declared (ascii "#address-cells") p.before with
      | none => rfl
      | some n => exact haddr n hd
    have hsize' : (declared (ascii "#size-cells") p.before).getD c.size = c.size := by
      cases hd : declared (ascii "#size-cells") p.before with
      | none => rfl
      | some n => exact hsize n hd
    rw [haddr', hsize']
  · intro h
    obtain ⟨haddr, hsize⟩ := Cells.mk.inj h
    refine ⟨fun n hn => ?_, fun n hn => ?_⟩
    · rw [Option.mem_def.mp hn] at haddr
      exact haddr
    · rw [Option.mem_def.mp hn] at hsize
      exact hsize

instance (p : Place) (c : Cells) : Decidable (p.Agrees c) := decidable_of_iff _ (p.agrees_iff c).symm

/-! ## The counts in a tree -/

/-- The counts in a place are those that the node has begun with after what it has declared. If the
parent declares its counts, the node has begun with those. -/
def Place.Counted (p : Place) : Prop :=
  ∃ base : Cells, p.ctx.cells = base.after p.before ∧ ∀ c ∈ p.parentCells, base = c

/-- Where there are no more properties, the node's own ones have all come. -/
theorem Items.NoProps.ownProps_eq {items : Items} (h : items.NoProps) : items.ownProps = [] := by
  induction items with
  | nil => rfl
  | prop name value rest => exact h.elim
  | node name items rest _ ih => exact ih h

/-- The counts at the beginning of a child. -/
theorem Place.Counted.child {p : Place} (h : p.Counted) (hown : p.own = p.before) (name : Bytes)
    (items : Items) : (p.child name items).Counted := by
  obtain ⟨base, hcells, -⟩ := h
  refine ⟨p.ctx.cells, rfl, fun c hc => ?_⟩
  obtain ⟨addr, haddr, hc⟩ := Option.bind_eq_some_iff.mp hc
  obtain ⟨size, hsize, hc⟩ := Option.bind_eq_some_iff.mp hc
  cases hc
  rw [hown] at haddr hsize
  rw [hcells, Cells.after_eq, haddr, hsize]
  rfl

/-- The counts in the places of a tree. -/
theorem Items.reads_counted (items : Items) {p : Place} (hordered : items.Ordered)
    (hown : p.own = p.before ++ items.ownProps) (h : p.Counted) :
    ∀ r ∈ items.reads p, r.place.Counted := by
  induction items generalizing p with
  | nil => exact List.forall_mem_nil _
  | prop name value rest ih =>
    rw [reads, List.forall_mem_cons]
    refine ⟨h, ih hordered ?_ ?_⟩
    · exact hown.trans (List.append_cons _ _ _)
    · obtain ⟨base, hcells, hbase⟩ := h
      refine ⟨base, ?_, hbase⟩
      show (p.ctx.update name value).cells = base.after (p.before ++ [(name, value)])
      rw [NodeContext.cells_update, hcells, Cells.after, Cells.after, List.foldl_concat]
  | node name items rest ih ih' =>
    rw [reads, List.forall_mem_append]
    refine ⟨ih hordered.1 rfl (h.child ?_ name items), ih' hordered.2.2 hown h⟩
    rw [hown, ownProps, hordered.2.1.ownProps_eq, List.append_nil]

/-- The counts in the places of a device tree. -/
theorem treeReads_counted {root : Bytes} {items : Items} (hordered : items.Ordered) :
    ∀ r ∈ treeReads root items, r.place.Counted :=
  items.reads_counted hordered rfl ⟨NodeContext.root.cells, rfl, nofun⟩

/-- A `reg` is in the counts that the parent declares exactly if the node has not declared others
before it. -/
theorem Place.Counted.cells_eq_iff {p : Place} (h : p.Counted) {c : Cells}
    (hc : c ∈ p.parentCells) : p.ctx.cells = c ↔ p.Agrees c := by
  obtain ⟨base, hcells, hbase⟩ := h
  obtain rfl := hbase c hc
  rw [hcells, p.agrees_iff]

/-! ## The counts in the walks -/

/-- The cell counts with which `parse` decodes a `reg`. -/
def ParseState.cells (s : ParseState) : Option Cells :=
  if s.depth = 0 then none else s.stack[s.depth - 1]?.map NodeContext.cells

/-- The cell counts with which `find_simplefb` decodes a `reg`. -/
def SimpleFbWalk.cells (s : SimpleFbWalk) : Option Cells :=
  if s.depth = 0 then none else s.stack[s.depth - 1]?.map NodeContext.cells

/-- The cell counts with which `find_reg_by_path` decodes a `reg`. -/
def RegWalk.cells (s : RegWalk) : Option Cells :=
  if s.depth = 0 then none else s.stack[s.depth - 1]?.map RegNode.cells

section Walks

variable {σ ρ F : Type} {v : Visitor σ ρ} {I : σ → Prop} {view : NodeContext → F}
  {frames : σ → List F} {cells : σ → Option Cells}

/-- A walk comes to the properties of the tree in order, as far as it goes, and to every `reg` below a
node that declares cell counts with these counts. -/
structure ByParent (cells : σ → Option Cells) (reads : List Read) (log : List (Seen σ)) : Prop where
  inOrder : InOrder reads log
  counts : ∀ p ∈ reads.zip log, p.1.name = ascii "reg" → ∀ c ∈ p.1.place.parentCells,
    cells p.2.before = some c

/-- No node with a `reg` below a node that declares cell counts declares others before the `reg`. -/
def OwnAgree (reads : List Read) : Prop :=
  ∀ r ∈ reads, r.name = ascii "reg" → ∀ c ∈ r.place.parentCells, r.place.Agrees c

/-- The counts of a walk that keeps to the tree are the parents' exactly if the nodes agree, as far as
it goes. -/
theorem byParent_iff {reads : List Read} {log : List (Seen σ)}
    (h : AlongPrefix (Reads I view frames) reads log)
    (hcells : ∀ s ctx outer, I s → frames s = view ctx :: outer → cells s = some ctx.cells)
    (hcounted : ∀ r ∈ reads, r.place.Counted)
    (hclean : ∀ r ∈ reads, r.name = ascii "reg" → r.place.deep = false) :
    ByParent cells reads log ↔ OwnAgree (reads.take log.length) := by
  have hcounts := h.forall_zip_iff (P := fun r x => r.name = ascii "reg" →
      ∀ c ∈ r.place.parentCells, cells x.before = some c)
    (Q := fun r => r.name = ascii "reg" → ∀ c ∈ r.place.parentCells, r.place.Agrees c) fun r hr x hx => by
      refine imp_congr_right fun hreg => forall₂_congr fun c hc => ?_
      obtain ⟨outer, hstands⟩ := hx.stands
      obtain ⟨hframes, -⟩ := hstands.clean (hclean r hr hreg)
      rw [hcells _ _ _ hx.inv hframes, Option.some_inj, (hcounted r hr).cells_eq_iff hc]
  rw [OwnAgree, ← hcounts]
  exact ⟨fun hby => hby.counts, fun hby => ⟨inOrder_of_reads h, hby⟩⟩

end Walks

/-- The counts of `parse` are those of the innermost context. -/
theorem ParseState.cells_of_frames (s : ParseState) (ctx : NodeContext) (outer : List NodeContext)
    (hs : s.Inv) (h : s.frames = id ctx :: outer) : s.cells = some ctx.cells := by
  have hpos := pos_of_upTo h
  rw [ParseState.cells, if_neg (Nat.ne_of_gt hpos),
    getElem?_top (hs.depth_le.trans_eq hs.length.symm) h]
  rfl

/-- The counts of `find_simplefb` are those of the innermost node. -/
theorem SimpleFbWalk.cells_of_frames (s : SimpleFbWalk) (ctx : NodeContext) (outer : List Cells)
    (hs : s.Inv) (h : s.frames = ctx.cells :: outer) : s.cells = some ctx.cells := by
  obtain ⟨ctx', rest, hstack, hctx, -⟩ := List.map_eq_cons_iff.mp h
  have hpos := pos_of_upTo hstack
  rw [SimpleFbWalk.cells, if_neg (Nat.ne_of_gt hpos),
    getElem?_top (hs.depth_le.trans_eq hs.length.symm) hstack, Option.map_some, hctx]

/-- The counts of `find_reg_by_path` are those of the innermost node. -/
theorem RegWalk.cells_of_frames (s : RegWalk) (ctx : NodeContext) (outer : List Cells)
    (hs : s.Inv) (h : s.frames = ctx.cells :: outer) : s.cells = some ctx.cells := by
  obtain ⟨node, rest, hstack, hnode, -⟩ := List.map_eq_cons_iff.mp h
  have hpos := pos_of_upTo hstack
  rw [RegWalk.cells, if_neg (Nat.ne_of_gt hpos),
    getElem?_top (hs.depth_le.trans_eq hs.length.symm) hstack, Option.map_some, hnode]

/-! ## The three walks -/

/-- The three walks come to every `reg` with the cell counts that the parent declares. -/
structure RegsByParent (b : Blob) (root : Bytes) (items : Items) : Prop where
  parse : ByParent ParseState.cells (treeReads root items) (parseLog b)
  simplefb : ByParent SimpleFbWalk.cells (treeReads root items) (simplefbLog b)
  byPath : ∀ target, ByParent RegWalk.cells (treeReads root items) (regLog b target)

/-- No node that a walk comes to declares, before its `reg`, other counts than its parent. -/
structure OwnCellsAgree (b : Blob) (root : Bytes) (items : Items) : Prop where
  parse : OwnAgree ((treeReads root items).take (parseLog b).length)
  simplefb : OwnAgree ((treeReads root items).take (simplefbLog b).length)
  byPath : ∀ target, OwnAgree ((treeReads root items).take (regLog b target).length)

section Trees

variable {b : Blob} {root : Bytes} {items : Items}

/-! ## A node with counts of its own -/

/-- A root that declares one cell for both, with a child. -/
def socTree (child : Items) : Items :=
  .prop (ascii "#address-cells") (be32 1)
    (.prop (ascii "#size-cells") (be32 1) (.node (ascii "soc") child .nil))

/-- A `reg` in one cell for both. -/
def socReg : Bytes := be32 0x1000 ++ be32 0x100

/-- The child, if its `reg` comes first. -/
def regFirst : Items :=
  .prop (ascii "reg") socReg (.prop (ascii "#address-cells") (be32 2) .nil)

/-- The child, if its counts come first. -/
def regLast : Items :=
  .prop (ascii "#address-cells") (be32 2) (.prop (ascii "reg") socReg .nil)

/-- The names of the properties. -/
def socStrings : Bytes :=
  ascii "#address-cells" ++ [0] ++ ascii "#size-cells" ++ [0] ++ ascii "reg" ++ [0]

set_option maxRecDepth 4000 in
/-- A blob of the tree in which the `reg` comes first. -/
def regFirstBlob : Blob where
  totalSize := 200
  structBlock := structBytes socStrings [] (socTree regFirst)
  stringsBlock := socStrings
  struct_lt := by decide
  strings_lt := by decide

set_option maxRecDepth 4000 in
/-- A blob of the tree in which the counts come first. -/
def regLastBlob : Blob where
  totalSize := 200
  structBlock := structBytes socStrings [] (socTree regLast)
  stringsBlock := socStrings
  struct_lt := by decide
  strings_lt := by decide

set_option maxRecDepth 4000 in
/-- It is a flattening of the tree. -/
theorem flattens_regFirst : Flattens regFirstBlob [] (socTree regFirst) :=
  flattens_structBytes rfl (by decide)

set_option maxRecDepth 4000 in
/-- It is a flattening of the tree. -/
theorem flattens_regLast : Flattens regLastBlob [] (socTree regLast) :=
  flattens_structBytes rfl (by decide)

/-- `parse` gets through the tree in which the counts come first. -/
theorem fold_regLast : ∃ s, parseVisitor.fold (.node [] (socTree regLast) .nil) ParseState.start =
    .ok (.next s) := ⟨_, rfl⟩

/-- No property is in or after a node below level 32. -/
theorem clean_soc {child : Items} (h : child = regFirst ∨ child = regLast) :
    ∀ r ∈ treeReads [] (socTree child), r.name = ascii "reg" → r.place.deep = false := by
  rcases h with rfl | rfl
  · decide
  · decide

/-! ## The condition -/

end Trees

end Ralix.Dtb
