import Ralix.Dtb.Reorder
import Ralix.Dtb.UartTree

/-!
# The node of a UART

The nodes of a device tree one by one, each with what it takes from its ancestors and with its own
properties (`UartSpot`). Where properties come before children, the properties of the tree are those of
its nodes, node by node (`uartProps_eq`). Where the paths of the nodes are distinct, what
`find_reg_by_path` returns is a matter of the one node with the path (`infoOfFour_eq`). And where a node's
property names are distinct, that is its one `reg`, read with the cell counts that come before it, and
the settings that come before it (`UartSpot.info?_of_reg`).
-/

namespace Ralix.Dtb

open Lib

/-! ## Nodes -/

/-- The node after some properties. -/
def UartNode.after (node : UartNode) (p : UInt32) (props : List (Bytes × Bytes)) : UartNode :=
  props.foldl (fun node q => node.update p q.1 q.2) node

/-- The settings after some properties. -/
def UartSettings.after (u : UartSettings) (props : List (Bytes × Bytes)) : UartSettings :=
  props.foldl (fun u q => u.update q.1 q.2) u

/-- A node of a device tree: its full path, the ranges of its ancestors from the inside out, the parent's
address cells, what it begins with, and its own properties in order. -/
structure UartSpot where
  path : Bytes
  outer : List (List Range)
  parentCells : UInt32
  base : UartNode
  own : List (Bytes × Bytes)

/-- The node after all its properties. -/
def UartSpot.final (s : UartSpot) : UartNode := s.base.after s.parentCells s.own

/-- The nodes below a node, in document order. The node is `own` after all its properties. -/
def Items.spots : Items → Bytes → List (List Range) → UartNode → List UartSpot
  | .nil, _, _, _ => []
  | .prop _ _ rest, path, outer, own => rest.spots path outer own
  | .node name items rest, path, outer, own =>
    let spot : UartSpot :=
      ⟨path ++ 0x2f :: name, own.ranges :: outer, own.addrCells, own.enter, items.ownProps⟩
    spot :: (items.spots spot.path spot.outer spot.final ++ rest.spots path outer own)

/-- The root of a device tree. -/
def rootSpot (root : Bytes) (items : Items) : UartSpot :=
  ⟨rootPath root, [], 0, UartNode.root, items.ownProps⟩

/-- The nodes of a device tree, in document order. -/
def treeSpots (root : Bytes) (items : Items) : List UartSpot :=
  rootSpot root items ::
    items.spots (rootPath root) [] (rootSpot root items).final

/-- Some properties of a node, which is `cur` before them. -/
def propsFrom (path : Bytes) (outer : List (List Range)) (p : UInt32) :
    UartNode → List (Bytes × Bytes) → List UartProp
  | _, [] => []
  | cur, (name, value) :: props =>
    ⟨path, outer, p, cur, name, value⟩ :: propsFrom path outer p (cur.update p name value) props

/-- The properties of a node. -/
def UartSpot.props (s : UartSpot) : List UartProp :=
  propsFrom s.path s.outer s.parentCells s.base s.own

/-! ## The properties of the tree, node by node -/

/-- What a node is after all its properties is a matter of these. -/
theorem Items.own_eq (items : Items) (p : UInt32) (cur : UartNode) :
    items.own p cur = cur.after p items.ownProps := by
  induction items generalizing cur with
  | nil => rfl
  | prop name value rest ih => exact ih _
  | node name items rest _ ih => exact ih cur

/-- The properties of a node and of the nodes below it, node by node. -/
theorem Items.Ordered.uartProps_eq {items : Items} (h : items.Ordered) (path : Bytes)
    (outer : List (List Range)) (p : UInt32) (own cur : UartNode) :
    items.uartProps path outer p own cur = propsFrom path outer p cur items.ownProps ++
      (items.spots path outer own).flatMap UartSpot.props := by
  induction items generalizing path outer p own cur with
  | nil => rfl
  | prop name value rest ih => exact congrArg (_ :: ·) (ih h path outer p own _)
  | node name items rest ih ih' =>
    have hnil := h.2.1.ownProps_eq
    have hitems := ih h.1 (path ++ 0x2f :: name) (own.ranges :: outer) own.addrCells
      (own.enter.after own.addrCells items.ownProps) own.enter
    rw [uartProps, spots, ownProps, hnil, own_eq, hitems, ih' h.2.2, hnil, List.flatMap_cons,
      List.flatMap_append]
    simp only [propsFrom, List.nil_append, List.append_assoc]
    rfl

/-- The properties of a tree, node by node. -/
theorem uartProps_eq {items : Items} (h : items.Ordered) (root : Bytes) :
    uartProps root items = (treeSpots root items).flatMap UartSpot.props := by
  rw [uartProps, h.uartProps_eq, Items.own_eq, treeSpots, List.flatMap_cons]
  rfl

/-- The nodes below a node have the paths there. -/
theorem Items.spots_paths (items : Items) (path : Bytes) (outer : List (List Range)) (own : UartNode) :
    (items.spots path outer own).map UartSpot.path = items.paths path := by
  induction items generalizing path outer own with
  | nil => rfl
  | prop name value rest ih => exact ih path outer own
  | node name items rest ih ih' =>
    rw [spots, paths, List.map_cons, List.map_append, ih, ih']

/-- The nodes of a tree have the paths of the tree. -/
theorem treeSpots_paths (root : Bytes) (items : Items) :
    (treeSpots root items).map UartSpot.path = rootPath root :: items.paths (rootPath root) := by
  rw [treeSpots, List.map_cons, Items.spots_paths]
  rfl

/-! ## The node with a path -/

/-- The address and the size of the first `reg` of the node that has an entry, if only the first four
ranges of a node count. -/
def UartSpot.place? (s : UartSpot) : Option (UInt64 × UInt64) :=
  s.props.find? (fun p => p.Hit s.path) >>= fun p => p.cut.result

/-- The UART that the node describes. -/
def UartSpot.info? (s : UartSpot) : Option UartInfo :=
  s.place?.map (settingsAt s.path s.props UartSettings.start).info

/-- The properties of a node have its path. -/
theorem propsFrom_path {path : Bytes} {outer : List (List Range)} {n : UInt32} {cur : UartNode}
    {props : List (Bytes × Bytes)} : ∀ p ∈ propsFrom path outer n cur props, p.path = path := by
  induction props generalizing cur with
  | nil => exact List.forall_mem_nil _
  | cons q props ih => exact List.forall_mem_cons.mpr ⟨rfl, ih⟩

section Find

variable {target : Bytes}

/-- There is nothing to find among the properties of other nodes. -/
theorem find?_of_ne {ps : List UartProp} (h : ∀ p ∈ ps, p.path ≠ target) :
    ps.find? (fun p => p.Hit target) = none := by
  rw [List.find?_eq_none]
  intro p hp hhit
  exact h p hp (of_decide_eq_true hhit).1

/-- The properties of other nodes leave the settings. -/
theorem settingsAt_of_ne {ps : List UartProp} (h : ∀ p ∈ ps, p.path ≠ target) (u : UartSettings) :
    settingsAt target ps u = u := by
  induction ps with
  | nil => rfl
  | cons p ps ih =>
    rw [List.forall_mem_cons] at h
    rw [settingsAt, if_neg (fun hhit => h.1 hhit.1), UartSettings.see, if_neg h.1, ih h.2]

/-- The properties of nodes with other paths. -/
theorem flatMap_props_ne {ss : List UartSpot} (h : target ∉ ss.map UartSpot.path) :
    ∀ p ∈ ss.flatMap UartSpot.props, p.path ≠ target := by
  intro p hp hpath
  obtain ⟨s, hs, hps⟩ := List.mem_flatMap.mp hp
  refine h (List.mem_map.mpr ⟨s, hs, ?_⟩)
  rw [← hpath, propsFrom_path p hps]

/-- Among nodes with distinct paths, there is a `reg` to find only in the node with the path, and the
settings are those of that node. -/
theorem find?_spots (target : Bytes) {ss : List UartSpot} (hunique : (ss.map UartSpot.path).Nodup)
    (u : UartSettings) :
    match ss.find? fun s => s.path = target with
    | none => (ss.flatMap UartSpot.props).find? (fun p => p.Hit target) = none
    | some s => (ss.flatMap UartSpot.props).find? (fun p => p.Hit target) =
        s.props.find? (fun p => p.Hit target) ∧
      settingsAt target (ss.flatMap UartSpot.props) u = settingsAt target s.props u := by
  induction ss with
  | nil => rfl
  | cons s ss ih =>
    rw [List.map_cons, List.nodup_cons] at hunique
    rw [List.flatMap_cons, List.find?_append]
    by_cases hpath : s.path = target
    · have hrest := flatMap_props_ne (hpath ▸ hunique.1)
      rw [List.find?_cons_of_pos (by simpa using hpath), find?_of_ne hrest, Option.or_none]
      refine ⟨rfl, ?_⟩
      -- without a hit in the node, the walk sees the rest, in which the path does not come again
      cases hfound : s.props.find? fun p => p.Hit target with
      | none => rw [settingsAt_append_of_miss hfound, settingsAt_of_ne hrest]
      | some p => rw [settingsAt_append_of_hit hfound]
    · have hne : ∀ p ∈ s.props, p.path ≠ target := fun p hp => by rwa [propsFrom_path p hp]
      rw [List.find?_cons_of_neg (by simpa using hpath), find?_of_ne hne, Option.none_or,
        settingsAt_append_of_miss (find?_of_ne hne), settingsAt_of_ne hne]
      exact ih hunique.2

/-- What `find_reg_by_path` finds is what the node with the path describes. -/
theorem infoOfFour_eq {root : Bytes} {items : Items} (hordered : items.Ordered)
    (hunique : (rootPath root :: items.paths (rootPath root)).Nodup) :
    regOfFour root items target =
        ((treeSpots root items).find? fun s => s.path = target) >>= UartSpot.place? ∧
      infoOfFour root items target =
        ((treeSpots root items).find? fun s => s.path = target) >>= UartSpot.info? := by
  rw [← treeSpots_paths] at hunique
  have hspots := find?_spots target hunique UartSettings.start
  rw [infoOfFour, regOfFour, uartProps_eq hordered]
  cases hfound : (treeSpots root items).find? fun s => s.path = target with
  | none =>
    rw [hfound] at hspots
    rw [hspots]
    exact ⟨rfl, rfl⟩
  | some s =>
    have hpath : s.path = target := by simpa using List.find?_some hfound
    rw [hfound] at hspots
    dsimp only at hspots
    rw [hspots.1, hspots.2]
    subst hpath
    exact ⟨rfl, rfl⟩

end Find

/-! ## The `reg` of a node -/

/-- Some properties after others. -/
theorem propsFrom_append (path : Bytes) (outer : List (List Range)) (n : UInt32) (cur : UartNode)
    (pre post : List (Bytes × Bytes)) : propsFrom path outer n cur (pre ++ post) =
      propsFrom path outer n cur pre ++ propsFrom path outer n (cur.after n pre) post := by
  induction pre generalizing cur with
  | nil => rfl
  | cons q pre ih => exact congrArg (_ :: ·) (ih _)

/-- A property that is found is a `reg`. -/
theorem UartProp.Hit.name_eq {target : Bytes} {p : UartProp} (h : p.Hit target) : p.name = ascii "reg" := by
  by_contra hne
  have hsome := h.2
  rw [first?, if_neg (fun h => hne h.1)] at hsome
  cases hsome

/-- The names of a node's properties. -/
theorem propsFrom_name {path : Bytes} {outer : List (List Range)} {n : UInt32} {cur : UartNode}
    {props : List (Bytes × Bytes)} {p : UartProp} (hp : p ∈ propsFrom path outer n cur props) :
    (p.name, p.value) ∈ props := by
  induction props generalizing cur with
  | nil => cases hp
  | cons q props ih =>
    rcases List.mem_cons.mp hp with rfl | hp
    · exact List.mem_cons_self
    · exact List.mem_cons_of_mem _ (ih hp)

/-- Without a `reg` there is nothing to find. -/
theorem find?_propsFrom {target path : Bytes} {outer : List (List Range)} {n : UInt32} {cur : UartNode}
    {props : List (Bytes × Bytes)} (h : ascii "reg" ∉ props.map Prod.fst) :
    (propsFrom path outer n cur props).find? (fun p => p.Hit target) = none := by
  rw [List.find?_eq_none]
  intro p hp hhit
  refine h (List.mem_map.mpr ⟨_, propsFrom_name hp, ?_⟩)
  exact (of_decide_eq_true hhit).name_eq

/-- Without a `reg`, all of a node's properties have set the settings. -/
theorem settingsAt_propsFrom {path : Bytes} {outer : List (List Range)} {n : UInt32} {cur : UartNode}
    {props : List (Bytes × Bytes)} (h : ascii "reg" ∉ props.map Prod.fst) (u : UartSettings) :
    settingsAt path (propsFrom path outer n cur props) u = u.after props := by
  induction props generalizing cur u with
  | nil => rfl
  | cons q props ih =>
    rw [List.map_cons, List.mem_cons, not_or] at h
    rw [propsFrom, settingsAt, if_neg (fun hhit => h.1 hhit.name_eq.symm), UartSettings.see, if_pos rfl,
      ih h.2]
    rfl

namespace UartSpot

variable {s : UartSpot} {pre post : List (Bytes × Bytes)} {value : Bytes}

/-- The node's `reg`, after some of its properties, with the first four ranges of each ancestor. -/
def regAfter (s : UartSpot) (pre : List (Bytes × Bytes)) (value : Bytes) : UartProp :=
  UartProp.cut ⟨s.path, s.outer, s.parentCells, s.base.after s.parentCells pre, ascii "reg", value⟩

/-- A node with distinct property names describes a UART by its `reg`, and by the properties before
it. -/
theorem info?_of_reg (hown : s.own = pre ++ (ascii "reg", value) :: post) (h : DistinctNames s.own) :
    s.place? = (s.regAfter pre value).result ∧
      s.info? = (s.regAfter pre value).result.map (UartSettings.start.after pre).info := by
  rw [DistinctNames, hown, List.map_append, List.map_cons, List.nodup_append, List.nodup_cons] at h
  obtain ⟨-, ⟨hpost, -⟩, hdisjoint⟩ := h
  have hpre : ascii "reg" ∉ pre.map Prod.fst := fun hmem =>
    hdisjoint _ hmem _ List.mem_cons_self rfl
  -- names are distinct, so neither before nor after it is another `reg` to be found
  have hprops : s.props = propsFrom s.path s.outer s.parentCells s.base pre ++
      ⟨s.path, s.outer, s.parentCells, s.base.after s.parentCells pre, ascii "reg", value⟩ ::
        propsFrom s.path s.outer s.parentCells
          ((s.base.after s.parentCells pre).update s.parentCells (ascii "reg") value) post := by
    rw [props, hown, propsFrom_append]
    rfl
  have hplace : s.place? = (s.regAfter pre value).result := by
    rw [place?, hprops, List.find?_append, find?_propsFrom hpre, Option.none_or, List.find?_cons,
      find?_propsFrom hpost]
    split
    · rfl
    · rename_i hmiss
      have hnone : (s.regAfter pre value).first? = none := by
        rw [← Option.not_isSome_iff_eq_none]
        exact fun hsome => of_decide_eq_false hmiss ⟨rfl, hsome⟩
      rw [UartProp.result, hnone]
      rfl
  refine ⟨hplace, ?_⟩
  rw [info?, hplace]
  cases hresult : (s.regAfter pre value).result with
  | none => rfl
  | some place =>
    have hhit : UartProp.Hit s.path ⟨s.path, s.outer, s.parentCells, s.base.after s.parentCells pre,
        ascii "reg", value⟩ := by
      refine ⟨rfl, ?_⟩
      obtain ⟨entry, hentry, -⟩ := Option.bind_eq_some_iff.mp hresult
      exact Option.isSome_iff_exists.mpr ⟨entry, hentry⟩
    rw [hprops, settingsAt_append_of_miss (find?_propsFrom hpre), settingsAt_propsFrom hpre, settingsAt,
      if_pos hhit]

/-- A node without a `reg` describes none. -/
theorem place?_of_no_reg (h : ascii "reg" ∉ s.own.map Prod.fst) : s.place? = none := by
  rw [place?, props, find?_propsFrom h]
  rfl

end UartSpot

end Ralix.Dtb
