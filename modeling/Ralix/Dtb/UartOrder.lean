import Ralix.Dtb.UartSpots

/-!
# The UART and the order of properties

What `find_uart` returns depends on the order of the properties in a node in two ways. `find_reg_by_path`
leaves at the `reg`, so the settings that come after it are lost. And it reads a `reg` and a `ranges` with
the cell counts that the node has declared so far, which are one of a few (`Cells.Choice`). The counts
that a node hands down to its children do not depend on the order (`Cells.after_perm`).

A node is steady if its ranges or its UART are the same for all of these (`RangesSteady`, `RegSteady`).
`Items.Reorders.treeSpots` relates the nodes of a tree to those of the tree in another order. At a node
whose way from the root is steady, only the order of its own properties is left
(`UartSpot.Reorders.info?_eq`).
-/

namespace Ralix.Dtb

open Lib

/-! ## Cell counts in another order -/

/-- The cell counts of a node. -/
def UartNode.cells (node : UartNode) : Cells := ⟨node.addrCells, node.sizeCells⟩

/-- A node is its cell counts and its ranges. -/
theorem UartNode.eq_of_cells {node node' : UartNode} (hcells : node.cells = node'.cells)
    (hranges : node.ranges = node'.ranges) : node = node' := by
  obtain ⟨addrCells, sizeCells, ranges⟩ := node
  cases hcells
  cases hranges
  rfl

/-- A property changes the cell counts of a node as it changes cell counts. -/
theorem UartNode.cells_update (node : UartNode) (p : UInt32) (name value : Bytes) :
    (node.update p name value).cells = node.cells.update name value := by
  unfold update Cells.update
  split_ifs
  · rfl
  · rfl
  · rfl
  · rfl

/-- So do some properties. -/
theorem UartNode.cells_after (node : UartNode) (p : UInt32) (props : List (Bytes × Bytes)) :
    (node.after p props).cells = node.cells.after props := by
  induction props generalizing node with
  | nil => rfl
  | cons q props ih =>
    rw [after, List.foldl_cons, ← after, ih, cells_update]
    rfl

/-- Properties with different names change different counts. -/
theorem Cells.update_comm (c : Cells) {x y : Bytes × Bytes} (h : x.1 ≠ y.1) :
    (c.update x.1 x.2).update y.1 y.2 = (c.update y.1 y.2).update x.1 x.2 := by
  unfold update
  split_ifs with hy hx hx hy' hx hx'
  · exact absurd (hx.1.trans hy.1.symm) h
  · rfl
  · rfl
  · rfl
  · exact absurd (hx'.1.trans hy'.1.symm) h
  · rfl
  · rfl
  · rfl
  · rfl

/-- The cell counts after a node's properties are the same in any order. -/
theorem Cells.after_perm (c : Cells) {props props' : List (Bytes × Bytes)} (hperm : props.Perm props')
    (h : DistinctNames props) : c.after props = c.after props' :=
  foldl_perm hperm h (fun c _ _ hne => c.update_comm hne) c

/-- An address and a size are read with the cell counts of the node, and translated through the ranges
of its ancestors. -/
theorem UartProp.result_congr {p q : UartProp} (hpath : p.path = q.path) (houter : p.outer = q.outer)
    (hcells : p.node.cells = q.node.cells) (hname : p.name = q.name) (hvalue : p.value = q.value) :
    p.result = q.result := by
  obtain ⟨path, outer, n, ⟨addrCells, sizeCells, ranges⟩, name, value⟩ := p
  cases hpath
  cases houter
  cases hcells
  cases hname
  cases hvalue
  rfl

/-- Numbers of cells that a node's properties declare. -/
def declaredCells (name : Bytes) (props : List (Bytes × Bytes)) : List UInt32 :=
  props.filterMap fun q => if q.1 = name ∧ 4 ≤ q.2.length then some (word32 (q.2.take 4)) else none

/-- A declared number of cells is that of a property. -/
theorem mem_declaredCells {name : Bytes} {props : List (Bytes × Bytes)} {x : UInt32} :
    x ∈ declaredCells name props ↔ ∃ q ∈ props, (q.1 = name ∧ 4 ≤ q.2.length) ∧ word32 (q.2.take 4) = x := by
  rw [declaredCells, List.mem_filterMap]
  refine exists_congr fun q => and_congr_right fun _ => ?_
  split_ifs with hq
  · rw [Option.some.injEq]
    exact (and_iff_right hq).symm
  · constructor
    · intro hnone
      cases hnone
    · intro h
      exact absurd h.1 hq

/-- The cell counts that a `reg` or a `ranges` of a node may be read with: those that the node begins
with and those that it declares. -/
structure Cells.Choice (c : Cells) (props : List (Bytes × Bytes)) (c' : Cells) : Prop where
  addr : c'.addr ∈ c.addr :: declaredCells (ascii "#address-cells") props
  size : c'.size ∈ c.size :: declaredCells (ascii "#size-cells") props

/-- A property leaves cell counts that the node may have. -/
theorem Cells.Choice.update {c c' : Cells} {props : List (Bytes × Bytes)} (h : c.Choice props c')
    {q : Bytes × Bytes} (hq : q ∈ props) : c.Choice props (c'.update q.1 q.2) := by
  unfold Cells.update
  split_ifs with haddr hsize
  · exact ⟨List.mem_cons_of_mem _ (mem_declaredCells.mpr ⟨q, hq, haddr, rfl⟩), h.size⟩
  · exact ⟨h.addr, List.mem_cons_of_mem _ (mem_declaredCells.mpr ⟨q, hq, hsize, rfl⟩)⟩
  · exact h

/-- So do some of its properties. -/
theorem Cells.Choice.after {c c' : Cells} {props pre : List (Bytes × Bytes)} (h : c.Choice props c')
    (hpre : ∀ q ∈ pre, q ∈ props) : c.Choice props (c'.after pre) := by
  induction pre generalizing c' with
  | nil => exact h
  | cons q pre ih =>
    rw [List.forall_mem_cons] at hpre
    exact ih (h.update hpre.1) hpre.2

/-- The cell counts that the node begins with are among them. -/
theorem Cells.choice_self (c : Cells) (props : List (Bytes × Bytes)) : c.Choice props c :=
  ⟨List.mem_cons_self, List.mem_cons_self⟩

/-- A property of cell counts can be tested for all of them. -/
instance (priority := high) decidableCounts {as cs : List UInt32} {p : UInt32 → UInt32 → Prop}
    [∀ a c, Decidable (p a c)] : Decidable (∀ a ∈ as, ∀ c ∈ cs, p a c) :=
  haveI (a : UInt32) : Decidable (∀ c ∈ cs, p a c) := List.decidableBAll (p a) cs
  List.decidableBAll (fun a => ∀ c ∈ cs, p a c) as

/-! ## Ranges in another order -/

/-- The ranges that a `ranges` gives a node in some cell counts, with `p` address cells of the parent. -/
def rangesIn (c : Cells) (p : UInt32) (value : Bytes) : List Range :=
  if 0 < (UartNode.mk c.addr c.size []).rangeBytes p then
    (UartNode.mk c.addr c.size []).rangeEntries p value
  else []

/-- A `ranges` is read with the cell counts at it. -/
theorem UartNode.update_ranges {node : UartNode} (hnode : node.ranges = []) (p : UInt32)
    (value : Bytes) : (node.update p (ascii "ranges") value).ranges = rangesIn node.cells p value := by
  have haddr : ascii "ranges" ≠ ascii "#address-cells" := by decide
  have hsize : ascii "ranges" ≠ ascii "#size-cells" := by decide
  have hbytes : (UartNode.mk node.cells.addr node.cells.size []).rangeBytes p = node.rangeBytes p := rfl
  rw [update, if_neg (fun h => haddr h.1), if_neg (fun h => hsize h.1), rangesIn, hbytes]
  by_cases hpos : 0 < node.rangeBytes p
  · rw [if_pos ⟨rfl, hpos⟩, if_pos hpos]
    rfl
  · rw [if_neg (fun h => hpos h.2), if_neg hpos, hnode]

/-- Other properties leave the ranges. -/
theorem UartNode.after_ranges_eq {node : UartNode} {p : UInt32} {props : List (Bytes × Bytes)}
    (h : ascii "ranges" ∉ props.map Prod.fst) : (node.after p props).ranges = node.ranges := by
  induction props generalizing node with
  | nil => rfl
  | cons q props ih =>
    rw [List.map_cons, List.mem_cons, not_or] at h
    rw [after, List.foldl_cons, ← after, ih h.2, update]
    have hne : ¬(q.1 = ascii "ranges" ∧ 0 < node.rangeBytes p) := fun heq => h.1 heq.1.symm
    split_ifs
    · rfl
    · rfl
    · rfl

/-- A node's ranges after its properties are those of its one `ranges`. -/
theorem UartNode.after_ranges {node : UartNode} {p : UInt32} {pre post : List (Bytes × Bytes)}
    {value : Bytes} (hnode : node.ranges = [])
    (h : DistinctNames (pre ++ (ascii "ranges", value) :: post)) :
    (node.after p (pre ++ (ascii "ranges", value) :: post)).ranges =
      rangesIn (node.cells.after pre) p value := by
  rw [DistinctNames, List.map_append, List.map_cons, List.nodup_append, List.nodup_cons] at h
  obtain ⟨-, ⟨hpost, -⟩, hdisjoint⟩ := h
  have hpre : ascii "ranges" ∉ pre.map Prod.fst := fun hmem =>
    hdisjoint _ hmem _ List.mem_cons_self rfl
  have hbefore : (node.after p pre).ranges = [] := (after_ranges_eq hpre).trans hnode
  rw [after, List.foldl_append, List.foldl_cons, ← after, ← after, after_ranges_eq hpost,
    update_ranges hbefore, cells_after]

/-- Properties that keep the settings, one by one, keep them. -/
theorem UartSettings.after_eq {u : UartSettings} {props : List (Bytes × Bytes)}
    (h : ∀ q ∈ props, u.update q.1 q.2 = u) : u.after props = u := by
  induction props with
  | nil => rfl
  | cons q props ih =>
    rw [List.forall_mem_cons] at h
    rw [after, List.foldl_cons, h.1]
    exact ih h.2

namespace UartSpot

/-- No property of the node changes the cell counts that it begins with. -/
def CellsKept (s : UartSpot) : Prop := ∀ q ∈ s.own, s.base.cells.update q.1 q.2 = s.base.cells

/-- The node's `ranges` gives the same ranges in all the cell counts that it may be read with. -/
def RangesSteady (s : UartSpot) : Prop :=
  ∀ q ∈ s.own, q.1 = ascii "ranges" →
    ∀ a ∈ s.base.addrCells :: declaredCells (ascii "#address-cells") s.own,
      ∀ c ∈ s.base.sizeCells :: declaredCells (ascii "#size-cells") s.own,
        rangesIn ⟨a, c⟩ s.parentCells q.2 = rangesIn s.base.cells s.parentCells q.2

instance (s : UartSpot) : Decidable s.RangesSteady := by
  unfold RangesSteady
  infer_instance

/-- No property of the node changes the settings. -/
def SettingsKept (s : UartSpot) : Prop :=
  ∀ q ∈ s.own, UartSettings.start.update q.1 q.2 = UartSettings.start

instance (s : UartSpot) : Decidable s.SettingsKept := by
  unfold SettingsKept
  infer_instance

/-- The address and the size that a `reg` of the node gives in some cell counts, if only the first four
ranges of an ancestor count. -/
def placeIn (s : UartSpot) (c : Cells) (value : Bytes) : Option (UInt64 × UInt64) :=
  (UartProp.cut ⟨s.path, s.outer, s.parentCells, ⟨c.addr, c.size, []⟩, ascii "reg", value⟩).result

/-- The node's `reg` gives the same address and size in all the cell counts that it may be read with. And
if it gives any, the node sets nothing but the defaults. -/
def RegSteady (s : UartSpot) : Prop :=
  ∀ q ∈ s.own, q.1 = ascii "reg" →
    (∀ a ∈ s.base.addrCells :: declaredCells (ascii "#address-cells") s.own,
      ∀ c ∈ s.base.sizeCells :: declaredCells (ascii "#size-cells") s.own,
        s.placeIn ⟨a, c⟩ q.2 = s.placeIn s.base.cells q.2) ∧
    (s.placeIn s.base.cells q.2 = none ∨ s.SettingsKept)

instance (s : UartSpot) : Decidable s.RegSteady := by
  unfold RegSteady
  infer_instance

/-- A node that keeps the cell counts that it begins with has no others to choose from. -/
theorem CellsKept.eq_of_choice {s : UartSpot} (h : s.CellsKept) {c : Cells}
    (hc : s.base.cells.Choice s.own c) : c = s.base.cells := by
  have haddr : c.addr = s.base.addrCells := by
    rcases List.mem_cons.mp hc.addr with heq | hmem
    · exact heq
    · obtain ⟨q, hq, hname, hvalue⟩ := mem_declaredCells.mp hmem
      have hkept := h q hq
      rw [Cells.update, if_pos hname, hvalue] at hkept
      exact congrArg Cells.addr hkept
  have hsize : c.size = s.base.sizeCells := by
    rcases List.mem_cons.mp hc.size with heq | hmem
    · exact heq
    · obtain ⟨q, hq, hname, hvalue⟩ := mem_declaredCells.mp hmem
      have hother : q.1 ≠ ascii "#address-cells" := by
        rw [hname.1]
        decide
      have hkept := h q hq
      rw [Cells.update, if_neg (fun h => hother h.1), if_pos hname, hvalue] at hkept
      exact congrArg Cells.size hkept
  obtain ⟨addr, size⟩ := c
  cases haddr
  cases hsize
  rfl

/-- A node that keeps the cell counts and the settings is steady. -/
theorem CellsKept.regSteady {s : UartSpot} (hcells : s.CellsKept) (hsettings : s.SettingsKept) :
    s.RegSteady := by
  intro q _ _
  refine ⟨fun a ha c hc => ?_, .inr hsettings⟩
  rw [hcells.eq_of_choice (c := ⟨a, c⟩) ⟨ha, hc⟩]

/-- So are its ranges. -/
theorem CellsKept.rangesSteady {s : UartSpot} (hcells : s.CellsKept) : s.RangesSteady := by
  intro q _ _ a ha c hc
  rw [hcells.eq_of_choice (c := ⟨a, c⟩) ⟨ha, hc⟩]

/-- The ranges of a steady node are those that its `ranges` gives in the cell counts it begins with. -/
theorem RangesSteady.after_ranges {s : UartSpot} (h : s.RangesSteady) (hbase : s.base.ranges = [])
    {props : List (Bytes × Bytes)} (hperm : s.own.Perm props) (hdistinct : DistinctNames props)
    {value : Bytes} (hmem : (ascii "ranges", value) ∈ props) :
    (s.base.after s.parentCells props).ranges = rangesIn s.base.cells s.parentCells value := by
  have hown := hperm.mem_iff.mpr hmem
  obtain ⟨pre, post, rfl⟩ := List.append_of_mem hmem
  have hchoice := (s.base.cells.choice_self s.own).after fun q hq =>
    hperm.mem_iff.mpr (List.mem_append_left _ hq)
  rw [UartNode.after_ranges hbase hdistinct]
  exact h _ hown rfl _ hchoice.addr _ hchoice.size

/-- Such a node is the same after all its properties, in any order. -/
theorem RangesSteady.after_perm {s : UartSpot} (h : s.RangesSteady) (hbase : s.base.ranges = [])
    {props : List (Bytes × Bytes)} (hperm : s.own.Perm props) (hown : DistinctNames s.own) :
    s.base.after s.parentCells s.own = s.base.after s.parentCells props := by
  have hprops : DistinctNames props := (hperm.map Prod.fst).nodup_iff.mp hown
  refine UartNode.eq_of_cells ?_ ?_
  · rw [UartNode.cells_after, UartNode.cells_after, Cells.after_perm _ hperm hown]
  · by_cases hranges : ascii "ranges" ∈ s.own.map Prod.fst
    · obtain ⟨⟨name, value⟩, hmem, rfl⟩ := List.mem_map.mp hranges
      rw [h.after_ranges hbase (List.Perm.refl _) hown hmem,
        h.after_ranges hbase hperm hprops (hperm.mem_iff.mp hmem)]
    · have hranges' : ascii "ranges" ∉ props.map Prod.fst := by rwa [← (hperm.map Prod.fst).mem_iff]
      rw [UartNode.after_ranges_eq hranges, UartNode.after_ranges_eq hranges']

/-! ## A node in another order -/

/-- The same node with its properties in another order. Only at the target need its ancestors have the
same ranges. -/
structure Reorders (target : Bytes) (s s' : UartSpot) : Prop where
  path : s'.path = s.path
  parentCells : s'.parentCells = s.parentCells
  base : s'.base = s.base
  own : s.own.Perm s'.own
  outer : s.path = target → s'.outer = s.outer

variable {target : Bytes} {s s' : UartSpot} {pre post : List (Bytes × Bytes)} {value : Bytes}

/-- A `reg` is read with the cell counts at it. -/
theorem regAfter_result (s : UartSpot) (pre : List (Bytes × Bytes)) (value : Bytes) :
    (s.regAfter pre value).result = s.placeIn (s.base.cells.after pre) value := by
  have hcells : (s.base.after s.parentCells pre).cells = s.base.cells.after pre :=
    UartNode.cells_after _ _ _
  exact UartProp.result_congr rfl rfl hcells rfl rfl

/-- The UART that a node describes, by the properties before its `reg`. -/
theorem info?_eq (hown : s.own = pre ++ (ascii "reg", value) :: post) (h : DistinctNames s.own) :
    s.info? = (s.placeIn (s.base.cells.after pre) value).map (UartSettings.start.after pre).info := by
  rw [(info?_of_reg hown h).2, regAfter_result]

/-- A node describes the same UART wherever its `reg` stands, if it is steady. -/
theorem RegSteady.info?_eq (h : s.RegSteady) (hown : s.own.Perm (pre ++ (ascii "reg", value) :: post)) :
    (s.placeIn (s.base.cells.after pre) value).map (UartSettings.start.after pre).info =
      (s.placeIn s.base.cells value).map UartSettings.start.info := by
  have hpre : ∀ q ∈ pre, q ∈ s.own := fun q hq => hown.mem_iff.mpr (List.mem_append_left _ hq)
  have hreg : (ascii "reg", value) ∈ s.own :=
    hown.mem_iff.mpr (List.mem_append_right _ List.mem_cons_self)
  obtain ⟨hcells, hsettings⟩ := h _ hreg rfl
  have hchoice := (s.base.cells.choice_self s.own).after hpre
  have hplace : s.placeIn (s.base.cells.after pre) value = s.placeIn s.base.cells value :=
    hcells _ hchoice.addr _ hchoice.size
  rw [hplace]
  rcases hsettings with hnone | hkept
  · rw [hnone]
    rfl
  · rw [UartSettings.after_eq fun q hq => hkept q (hpre q hq)]

/-- The node at the target describes the same UART in another order, if it is steady. -/
theorem Reorders.info?_eq (h : s.Reorders target s') (hpath : s.path = target)
    (hown : DistinctNames s.own) (hsteady : s.RegSteady) : s'.info? = s.info? := by
  have hown' : DistinctNames s'.own := (h.own.map Prod.fst).nodup_iff.mp hown
  by_cases hreg : ascii "reg" ∈ s.own.map Prod.fst
  · obtain ⟨⟨name, value⟩, hmem, rfl⟩ := List.mem_map.mp hreg
    obtain ⟨pre, post, hsplit⟩ := List.append_of_mem hmem
    obtain ⟨pre', post', hsplit'⟩ := List.append_of_mem (h.own.mem_iff.mp hmem)
    have hplace : ∀ c, s'.placeIn c value = s.placeIn c value := fun c =>
      UartProp.result_congr h.path (congrArg (List.map (List.take 4)) (h.outer hpath)) rfl rfl rfl
    have hperm : s.own.Perm (pre ++ (ascii "reg", value) :: post) := hsplit ▸ List.Perm.refl _
    have hperm' : s.own.Perm (pre' ++ (ascii "reg", value) :: post') := hsplit' ▸ h.own
    rw [UartSpot.info?_eq hsplit hown, UartSpot.info?_eq hsplit' hown', hplace, h.base,
      hsteady.info?_eq hperm, hsteady.info?_eq hperm']
  · have hreg' : ascii "reg" ∉ s'.own.map Prod.fst := by rwa [← (h.own.map Prod.fst).mem_iff]
    rw [info?, info?, place?_of_no_reg hreg, place?_of_no_reg hreg']
    rfl

end UartSpot

/-! ## A tree in another order -/

/-- Properties in front add no node below. -/
theorem Items.spots_withProps (props : List (Bytes × Bytes)) (items : Items) (path : Bytes)
    (outer : List (List Range)) (own : UartNode) :
    (items.withProps props).spots path outer own = items.spots path outer own := by
  induction props with
  | nil => rfl
  | cons q props ih => exact ih

/-- The nodes below begin without ranges, and with distinct property names. -/
theorem Items.Distinct.spots {items : Items} (h : items.Distinct) (path : Bytes)
    (outer : List (List Range)) (own : UartNode) :
    ∀ s ∈ items.spots path outer own, s.base.ranges = [] ∧ DistinctNames s.own := by
  induction items generalizing path outer own with
  | nil => exact List.forall_mem_nil _
  | prop name value rest ih => exact ih h path outer own
  | node name items rest ih ih' =>
    rw [Items.spots, List.forall_mem_cons, List.forall_mem_append]
    exact ⟨⟨rfl, h.1⟩, ih h.2.1 _ _ _, ih' h.2.2 _ _ _⟩

/-- The nodes below, in another order: their ancestors have the same ranges at the target, if the ranges
of the nodes on the way there do not depend on the order. -/
theorem Items.Reorders.spots {target : Bytes} {items items' : Items} (h : items.Reorders items')
    (hitems : items.Distinct) {path : Bytes} {outer outer' : List (List Range)} {own own' : UartNode}
    (hcells : own'.cells = own.cells)
    (hway : path ++ [0x2f] <+: target → own' = own ∧ outer' = outer)
    (hsteady : ∀ s ∈ items.spots path outer own, s.path ++ [0x2f] <+: target → s.RangesSteady) :
    List.Forall₂ (UartSpot.Reorders target) (items.spots path outer own)
      (items'.spots path outer' own') := by
  induction h generalizing path outer outer' own own' with
  | nil => exact .nil
  | props _ _ _ ih =>
    rw [distinct_withProps] at hitems
    rw [spots_withProps] at hsteady
    rw [spots_withProps, spots_withProps]
    exact ih hitems hcells hway hsteady
  | @node items items' rest rest' name hitemsOrder hrestOrder ih ih' =>
    obtain ⟨hown, hchild, hrest⟩ := hitems
    rw [Items.spots, List.forall_mem_cons, List.forall_mem_append] at hsteady
    obtain ⟨hspot, hsteadyChild, hsteadyRest⟩ := hsteady
    have haddr : own'.addrCells = own.addrCells := congrArg Cells.addr hcells
    have henter : own'.enter = own.enter := UartNode.eq_of_cells hcells rfl
    have hdown : path ++ [0x2f] <+: path ++ 0x2f :: name :=
      ⟨name, by rw [List.append_assoc]; rfl⟩
    rw [Items.spots, Items.spots]
    refine .cons ⟨rfl, haddr, henter, hitemsOrder.ownProps, fun hpath => ?_⟩
      (List.rel_append (ih hchild ?_ (fun hway' => ?_) hsteadyChild) (ih' hrest hcells hway hsteadyRest))
    · obtain ⟨hown', houter'⟩ := hway (hpath ▸ hdown)
      exact congrArg₂ (fun own outer => UartNode.ranges own :: outer) hown' houter'
    · show (own'.enter.after own'.addrCells items'.ownProps).cells =
        (own.enter.after own.addrCells items.ownProps).cells
      rw [henter, UartNode.cells_after, UartNode.cells_after,
        Cells.after_perm _ hitemsOrder.ownProps hown]
    -- the child is on the way, so this node is, and its ranges come out the same
    · have hpre := hdown.trans ((List.prefix_append _ _).trans hway')
      obtain ⟨hown', houter'⟩ := hway hpre
      have hfinal := (hspot hway').after_perm rfl hitemsOrder.ownProps hown
      refine ⟨?_, congrArg₂ (fun own outer => UartNode.ranges own :: outer) hown' houter'⟩
      show own'.enter.after own'.addrCells items'.ownProps = _
      rw [henter, haddr]
      exact hfinal.symm

/-- The nodes of a tree, in another order. -/
theorem Items.Reorders.treeSpots {target root : Bytes} {items items' : Items} (h : items.Reorders items')
    (hown : DistinctNames items.ownProps) (hitems : items.Distinct)
    (hsteady : ∀ s ∈ treeSpots root items, s.path ++ [0x2f] <+: target → s.RangesSteady) :
    List.Forall₂ (UartSpot.Reorders target) (treeSpots root items) (Dtb.treeSpots root items') := by
  rw [Dtb.treeSpots, List.forall_mem_cons] at hsteady
  refine .cons ⟨rfl, rfl, rfl, h.ownProps, fun _ => rfl⟩ (h.spots hitems ?_ (fun hway => ?_) hsteady.2)
  · show (UartNode.root.after 0 items'.ownProps).cells = (UartNode.root.after 0 items.ownProps).cells
    rw [UartNode.cells_after, UartNode.cells_after, Cells.after_perm _ h.ownProps hown]
  · exact ⟨((hsteady.1 hway).after_perm rfl h.ownProps hown).symm, rfl⟩

/-- The cell counts that a `reg` or a `ranges` of the node may be read with do not overflow, in any
order. -/
def UartSpot.Fits (s : UartSpot) : Prop :=
  ∀ a ∈ s.base.addrCells :: declaredCells (ascii "#address-cells") s.own,
    ∀ c ∈ s.base.sizeCells :: declaredCells (ascii "#size-cells") s.own,
      (ascii "reg" ∈ s.own.map Prod.fst → a.toNat + c.toNat < 2^32) ∧
      (ascii "ranges" ∈ s.own.map Prod.fst → a.toNat + s.parentCells.toNat + c.toNat < 2^32)

instance UartSpot.decidableFits (s : UartSpot) : Decidable s.Fits :=
  haveI (name : Bytes) : Decidable (name ∈ s.own.map Prod.fst) := decidable_of_iff _ List.mem_map.symm
  decidableCounts

/-- What a tree must be like in any order: 32 levels at most, paths of 256 bytes at most that are
distinct, properties before children and with distinct names in each node, and cell counts that do not
overflow. -/
structure OrderTree (root : Bytes) (items : Items) : Prop where
  levels : items.height + 1 ≤ 32
  rootPath_le : (rootPath root).length ≤ 256
  paths : ∀ path ∈ items.paths (rootPath root), path.length ≤ 256
  unique : (rootPath root :: items.paths (rootPath root)).Nodup
  ordered : items.Ordered
  distinct : DistinctNames items.ownProps
  distinctBelow : items.Distinct
  fits : ∀ s ∈ treeSpots root items, s.Fits

/-- What holds of a node and is kept by its properties holds wherever a property is read. -/
theorem propsFrom_node {P : UartNode → Prop} {path : Bytes} {outer : List (List Range)} {n : UInt32}
    {cur : UartNode} {props : List (Bytes × Bytes)} (hcur : P cur)
    (hupdate : ∀ node, P node → ∀ q ∈ props, P (node.update n q.1 q.2)) :
    ∀ p ∈ propsFrom path outer n cur props, P p.node ∧ p.parentCells = n := by
  induction props generalizing cur with
  | nil => exact List.forall_mem_nil _
  | cons q props ih =>
    refine List.forall_mem_cons.mpr ⟨⟨hcur, rfl⟩, ?_⟩
    exact ih (hupdate cur hcur q List.mem_cons_self) fun node hnode q' hq' =>
      hupdate node hnode q' (List.mem_cons_of_mem q hq')

/-- The cell counts do not overflow at a property of such a node. -/
theorem UartSpot.Fits.noOverflow {s : UartSpot} (h : s.Fits) : ∀ p ∈ s.props, p.NoOverflow := by
  intro p hp
  obtain ⟨hchoice, hparent⟩ := propsFrom_node (P := fun node => s.base.cells.Choice s.own node.cells)
    (s.base.cells.choice_self s.own) (fun node hnode q hq => by
      rw [UartNode.cells_update]
      exact hnode.update hq) p hp
  have hname : p.name ∈ s.own.map Prod.fst := List.mem_map.mpr ⟨_, propsFrom_name hp, rfl⟩
  obtain ⟨hreg, hranges⟩ := h _ hchoice.addr _ hchoice.size
  refine ⟨fun heq => hreg (heq ▸ hname), fun heq => ?_⟩
  rw [hparent]
  exact hranges (heq ▸ hname)

/-- The cell counts fit in another order if they fit in one. -/
theorem UartSpot.Reorders.fits {target : Bytes} {s s' : UartSpot} (h : s.Reorders target s') (hs : s.Fits) :
    s'.Fits := by
  have hdeclared : ∀ name x, x ∈ declaredCells name s'.own ↔ x ∈ declaredCells name s.own := fun name x =>
    (h.own.filterMap _).mem_iff.symm
  have hnames : ∀ name, name ∈ s'.own.map Prod.fst ↔ name ∈ s.own.map Prod.fst := fun name =>
    (h.own.map Prod.fst).mem_iff.symm
  intro a ha c hc
  rw [h.base, List.mem_cons, hdeclared, ← List.mem_cons] at ha hc
  rw [hnames, hnames, h.parentCells]
  exact hs a ha c hc

/-- Among nodes with distinct paths, a node is found at its path. -/
theorem find?_path {ss : List UartSpot} (hunique : (ss.map UartSpot.path).Nodup) {s : UartSpot}
    (hs : s ∈ ss) : (ss.find? fun s' => s'.path = s.path) = some s := by
  induction ss with
  | nil => cases hs
  | cons s' ss ih =>
    rw [List.map_cons, List.nodup_cons] at hunique
    rcases List.mem_cons.mp hs with rfl | hs
    · exact List.find?_cons_of_pos (by simp)
    · have hne : s'.path ≠ s.path := fun heq => hunique.1 (heq ▸ List.mem_map_of_mem hs)
      rw [List.find?_cons_of_neg (by simpa using hne), ih hunique.2 hs]

namespace OrderTree

variable {root : Bytes} {items items' : Items}

/-- The property names are distinct in every node. -/
theorem distinctNames (h : OrderTree root items) : ∀ s ∈ treeSpots root items, DistinctNames s.own := by
  refine List.forall_mem_cons.mpr ⟨h.distinct, fun s hs => ?_⟩
  exact (h.distinctBelow.spots _ _ _ s hs).2

/-- Such a tree is as `find_reg_by_path` needs it. -/
theorem rangesTree (h : OrderTree root items) : RangesTree root items where
  levels := h.levels
  rootPath_le := h.rootPath_le
  paths := h.paths
  ordered := h.ordered
  noOverflow := by
    rw [uartProps_eq h.ordered]
    intro p hp
    obtain ⟨s, hs, hps⟩ := List.mem_flatMap.mp hp
    exact (h.fits s hs).noOverflow p hps

/-- The tree is as it must be in any order. -/
theorem reorders (h : OrderTree root items) (horder : items.Reorders items') : OrderTree root items' where
  levels := horder.height_eq ▸ h.levels
  rootPath_le := h.rootPath_le
  paths := horder.paths_eq _ ▸ h.paths
  unique := horder.paths_eq _ ▸ h.unique
  ordered := horder.ordered h.ordered
  distinct := horder.distinctNames h.distinct
  distinctBelow := horder.distinct h.distinctBelow
  fits := by
    -- Whatever the target is, the nodes are the same but for their order and their ancestors' ranges.
    have hspots : List.Forall₂ (UartSpot.Reorders []) (treeSpots root items) (treeSpots root items') :=
      horder.treeSpots h.distinct h.distinctBelow
        fun s _ hway => absurd (List.prefix_nil.mp hway) (by simp)
    intro s' hs'
    obtain ⟨s, hs, hrel⟩ := exists_of_mem_right hspots hs'
    exact hrel.fits (h.fits s hs)

end OrderTree

end Ralix.Dtb
