import Ralix.Dtb.CellCounts
import Ralix.Lib.Keyed

/-!
# Device trees with their properties in another order

The order of a node's properties carries no meaning in a device tree. `Items.Reorders` says that two
trees have the same nodes in the same order, and each node the same properties in some order, before its
children. Such trees have the same shape and the same strings under `/aliases` and `/chosen`
(`Reorders.uartTarget_eq`), and where the one can be flattened, so can the other, to as many bytes
(`Reorders.flattens`).

`Items.arrange` puts the properties of every node in the order that a function gives for its path.
-/

namespace Ralix.Dtb

open Lib

/-- The names of a node's properties are distinct. -/
def DistinctNames (props : List (Bytes × Bytes)) : Prop := (props.map Prod.fst).Nodup

instance (props : List (Bytes × Bytes)) : Decidable (DistinctNames props) :=
  inferInstanceAs (Decidable (props.map Prod.fst).Nodup)

namespace Items

/-- Some properties before what is left of a node. -/
def withProps : List (Bytes × Bytes) → Items → Items
  | [], items => items
  | (name, value) :: props, items => .prop name value (withProps props items)

/-- The same nodes in the same order, with the properties of each in some order before its children. -/
inductive Reorders : Items → Items → Prop
  | nil : Reorders .nil .nil
  | node {items items' rest rest' : Items} (name : Bytes) :
    Reorders items items' → Reorders rest rest' →
    Reorders (.node name items rest) (.node name items' rest')
  | props {props props' : List (Bytes × Bytes)} {rest rest' : Items} :
    props.Perm props' → rest.NoProps → Reorders rest rest' →
    Reorders (rest.withProps props) (rest'.withProps props')

/-- The property names are distinct in every node below a node. -/
def Distinct : Items → Prop
  | .nil => True
  | .prop _ _ rest => rest.Distinct
  | .node _ items rest => DistinctNames items.ownProps ∧ items.Distinct ∧ rest.Distinct

/-! ## Properties in front -/

section WithProps

variable (props : List (Bytes × Bytes)) (items : Items)

/-- They come before the node's other properties. -/
theorem ownProps_withProps : (items.withProps props).ownProps = props ++ items.ownProps := by
  induction props with
  | nil => rfl
  | cons p props ih => exact congrArg (p :: ·) ih

/-- They are on no level below. -/
theorem height_withProps : (items.withProps props).height = items.height := by
  induction props with
  | nil => rfl
  | cons p props ih => exact ih

/-- They add no path. -/
theorem paths_withProps (path : Bytes) : (items.withProps props).paths path = items.paths path := by
  induction props with
  | nil => rfl
  | cons p props ih => exact ih

/-- They stand before the children. -/
theorem ordered_withProps : (items.withProps props).Ordered ↔ items.Ordered := by
  induction props with
  | nil => rfl
  | cons p props ih => exact ih

/-- They are in no node below. -/
theorem distinct_withProps : (items.withProps props).Distinct ↔ items.Distinct := by
  induction props with
  | nil => rfl
  | cons p props ih => exact ih

/-- They are in no child. -/
theorem scanned_withProps (node prop : Bytes) :
    (items.withProps props).scanned node prop = items.scanned node prop := by
  induction props with
  | nil => rfl
  | cons p props ih => exact ih

/-- They are the first that are looked at. -/
theorem first?_withProps (name : Bytes) :
    (items.withProps props).first? name = (props.lookup name).or (items.first? name) := by
  induction props with
  | nil => rfl
  | cons p props ih =>
    obtain ⟨key, value⟩ := p
    rw [withProps, first?, List.lookup_cons, ih]
    by_cases hkey : key = name
    · rw [if_pos hkey, beq_iff_eq.mpr hkey.symm]
      rfl
    · rw [if_neg hkey, beq_eq_false_iff_ne.mpr (Ne.symm hkey)]

end WithProps

/-- What is left of a node is its children, if they follow its properties. -/
theorem NoProps.withProps {items : Items} {props : List (Bytes × Bytes)}
    (h : (items.withProps props).NoProps) : props = [] ∧ items.NoProps := by
  cases props with
  | nil => exact ⟨rfl, h⟩
  | cons p props => exact absurd h id

namespace Reorders

variable {items items' : Items}

/-! ## What is the same in another order -/

/-- What is left of a node without properties has none. -/
theorem noProps (h : items.Reorders items') (hitems : items.NoProps) : items'.NoProps := by
  induction h with
  | nil => exact hitems
  | node name _ _ _ ih => exact ih hitems
  | props hperm _ _ ih =>
    obtain ⟨rfl, hrest⟩ := NoProps.withProps hitems
    rw [List.nil_perm.mp hperm]
    exact ih hrest

/-- Properties come before children. -/
theorem ordered (h : items.Reorders items') (hitems : items.Ordered) : items'.Ordered := by
  induction h with
  | nil => exact hitems
  | node name _ hrest ih ih' => exact ⟨ih hitems.1, hrest.noProps hitems.2.1, ih' hitems.2.2⟩
  | props _ _ _ ih =>
    rw [ordered_withProps] at hitems ⊢
    exact ih hitems

/-- The node's own properties are the same ones. -/
theorem ownProps (h : items.Reorders items') : items.ownProps.Perm items'.ownProps := by
  induction h with
  | nil => exact List.Perm.nil
  | node name _ _ _ ih => exact ih
  | props hperm _ _ ih =>
    rw [ownProps_withProps, ownProps_withProps]
    exact hperm.append ih

/-- Their names are distinct. -/
theorem distinctNames (h : items.Reorders items') (hitems : DistinctNames items.ownProps) :
    DistinctNames items'.ownProps :=
  (h.ownProps.map Prod.fst).nodup_iff.mp hitems

/-- So are those in the nodes below. -/
theorem distinct (h : items.Reorders items') (hitems : items.Distinct) : items'.Distinct := by
  induction h with
  | nil => exact hitems
  | node name hchild _ ih ih' =>
    exact ⟨hchild.distinctNames hitems.1, ih hitems.2.1, ih' hitems.2.2⟩
  | props _ _ _ ih =>
    rw [distinct_withProps] at hitems ⊢
    exact ih hitems

/-- There are as many levels. -/
theorem height_eq (h : items.Reorders items') : items'.height = items.height := by
  induction h with
  | nil => rfl
  | node name _ _ ih ih' => rw [height, height, ih, ih']
  | props _ _ _ ih => rw [height_withProps, height_withProps, ih]

/-- The nodes have the same paths. -/
theorem paths_eq (h : items.Reorders items') (path : Bytes) : items'.paths path = items.paths path := by
  induction h generalizing path with
  | nil => rfl
  | node name _ _ ih ih' => rw [paths, paths, ih, ih']
  | props _ _ _ ih => rw [paths_withProps, paths_withProps, ih]

/-- The first property with a name is the same, because in each node there is one at most. -/
theorem first?_eq (h : items.Reorders items') (hown : DistinctNames items.ownProps)
    (hitems : items.Distinct) (name : Bytes) : items'.first? name = items.first? name := by
  induction h with
  | nil => rfl
  | node child _ _ ih ih' =>
    rw [first?, first?, ih hitems.1 hitems.2.1, ih' hown hitems.2.2]
  | props hperm _ _ ih =>
    rw [ownProps_withProps, DistinctNames, List.map_append] at hown
    rw [distinct_withProps] at hitems
    rw [first?_withProps, first?_withProps, lookup_perm hperm hown.of_append_left,
      ih hown.of_append_right hitems]

/-- A scan finds the same property. -/
theorem scanned_eq (h : items.Reorders items') (hitems : items.Distinct) (node prop : Bytes) :
    items'.scanned node prop = items.scanned node prop := by
  induction h with
  | nil => rfl
  | node child hchild _ _ ih =>
    rw [scanned, scanned, hchild.first?_eq hitems.1 hitems.2.1, ih hitems.2.2]
  | props _ _ _ ih =>
    rw [distinct_withProps] at hitems
    rw [scanned_withProps, scanned_withProps, ih hitems]

/-- `find_uart` looks for the same path. -/
theorem uartTarget_eq (h : items.Reorders items') (hitems : items.Distinct) :
    items'.uartTarget = items.uartTarget := by
  have halias : ∀ aliasName, items'.aliasCut aliasName = items.aliasCut aliasName := by
    intro aliasName
    rw [aliasCut, aliasCut, h.scanned_eq hitems]
  have hstdout : items'.stdoutCut = items.stdoutCut := by
    rw [stdoutCut, stdoutCut, h.scanned_eq hitems]
  unfold uartTarget
  simp only [halias, hstdout]

end Reorders

end Items

/-! ## Flattenings -/

section Flattenings

variable {strings : Bytes}

/-- In a flattening of properties and what follows them, what follows can be replaced. -/
theorem Flat.withProps {props : List (Bytes × Bytes)} {rest : Items} {bytes : Bytes}
    (h : Flat strings (rest.withProps props) bytes) :
    ∃ pre post, bytes = pre ++ post ∧ Flat strings rest post ∧
      ∀ rest' post', Flat strings rest' post' → Flat strings (rest'.withProps props) (pre ++ post') := by
  induction props generalizing bytes with
  | nil => exact ⟨[], bytes, rfl, h, fun rest' post' h' => h'⟩
  | cons p props ih =>
    cases h with
    | prop n nameoff hname hlen hpad hflat =>
      obtain ⟨pre, post, rfl, hrest, hreplace⟩ := ih hflat
      refine ⟨_, post, (List.append_assoc _ pre post).symm, hrest, fun rest' post' h' => ?_⟩
      rw [List.append_assoc]
      exact .prop n nameoff hname hlen hpad (hreplace rest' post' h')

/-- Properties can be flattened in any order. -/
theorem Flat.perm {props props' : List (Bytes × Bytes)} (hperm : props.Perm props') {rest : Items}
    {bytes : Bytes} (h : Flat strings (rest.withProps props) bytes) :
    ∃ bytes', Flat strings (rest.withProps props') bytes' ∧ bytes'.length = bytes.length := by
  induction hperm generalizing bytes with
  | nil => exact ⟨bytes, h, rfl⟩
  | cons p _ ih =>
    cases h with
    | prop n nameoff hname hlen hpad hflat =>
      obtain ⟨bytes', hflat', hlength⟩ := ih hflat
      refine ⟨_, .prop n nameoff hname hlen hpad hflat', ?_⟩
      simp only [List.length_append, hlength]
  | swap p q props =>
    cases h with
    | prop n nameoff hname hlen hpad hflat =>
      cases hflat with
      | prop n' nameoff' hname' hlen' hpad' hflat =>
        refine ⟨_, .prop n' nameoff' hname' hlen' hpad' (.prop n nameoff hname hlen hpad hflat), ?_⟩
        simp only [List.length_append]
        omega
  | trans _ _ ih ih' =>
    obtain ⟨bytes₁, h₁, hlength₁⟩ := ih h
    obtain ⟨bytes₂, h₂, hlength₂⟩ := ih' h₁
    exact ⟨bytes₂, h₂, hlength₂.trans hlength₁⟩

/-- A tree in another order has a flattening of the same length. -/
theorem Items.Reorders.flat {items items' : Items} (h : items.Reorders items') {bytes : Bytes}
    (hflat : Flat strings items bytes) :
    ∃ bytes', Flat strings items' bytes' ∧ bytes'.length = bytes.length := by
  induction h generalizing bytes with
  | nil => exact ⟨bytes, hflat, rfl⟩
  | node name _ _ ih ih' =>
    cases hflat with
    | node n m hname hpad hitems hrest =>
      obtain ⟨bytes₁, hitems', hlength₁⟩ := ih hitems
      obtain ⟨bytes₂, hrest', hlength₂⟩ := ih' hrest
      refine ⟨_, .node n m hname hpad hitems' hrest', ?_⟩
      simp only [List.length_append, hlength₁, hlength₂]
  | props hperm _ _ ih =>
    obtain ⟨pre, post, rfl, hrest, hreplace⟩ := hflat.withProps
    obtain ⟨post', hrest', hlength⟩ := ih hrest
    obtain ⟨bytes', hflat', hlength'⟩ := Flat.perm hperm (hreplace _ post' hrest')
    exact ⟨bytes', hflat', by rw [hlength', List.length_append, List.length_append, hlength]⟩

/-- Where a tree has a blob, so does the tree in another order, with a struct block as long. -/
theorem Items.Reorders.flattens {root : Bytes} {items items' : Items} (h : items.Reorders items')
    {b : Blob} (hflat : Flattens b root items) :
    ∃ b', Flattens b' root items' ∧ b'.structBlock.length = b.structBlock.length := by
  obtain ⟨bytes, n, trailing, hbytes, hblock⟩ := hflat
  obtain ⟨bytes', hbytes', hlength⟩ := (Items.Reorders.node root h .nil).flat hbytes
  have hlen : (bytes' ++ nops n ++ be32 fdtEnd ++ trailing).length = b.structBlock.length := by
    rw [hblock]
    simp only [List.length_append, hlength]
  exact ⟨{ b with
      structBlock := bytes' ++ nops n ++ be32 fdtEnd ++ trailing
      struct_lt := hlen.trans_lt b.struct_lt },
    ⟨bytes', n, trailing, hbytes', rfl⟩, hlen⟩

end Flattenings

/-! ## The properties of every node in one order -/

namespace Items

/-- The children of a node, without its properties. -/
def kids : Items → Items
  | .nil => .nil
  | .prop _ _ rest => rest.kids
  | .node name items rest => .node name items rest.kids

/-- The children of a node with a path, with the properties of each node in the order that `f` gives
for its path. -/
def arrangeKids (f : Bytes → List (Bytes × Bytes) → List (Bytes × Bytes)) : Items → Bytes → Items
  | .nil, _ => .nil
  | .prop _ _ rest, path => rest.arrangeKids f path
  | .node name items rest, path =>
    .node name
      ((items.arrangeKids f (path ++ 0x2f :: name)).withProps (f (path ++ 0x2f :: name) items.ownProps))
      (rest.arrangeKids f path)

/-- A node with a path, with the properties of each node in the order that `f` gives for its path. -/
def arrange (f : Bytes → List (Bytes × Bytes) → List (Bytes × Bytes)) (items : Items) (path : Bytes) :
    Items :=
  (items.arrangeKids f path).withProps (f path items.ownProps)

/-- Children are all there is left. -/
theorem noProps_kids (items : Items) : items.kids.NoProps := by
  induction items with
  | nil => exact trivial
  | prop name value rest ih => exact ih
  | node name items rest _ ih => exact ih

/-- What is left without properties is children. -/
theorem NoProps.kids_eq {items : Items} (h : items.NoProps) : items.kids = items := by
  induction items with
  | nil => rfl
  | prop name value rest _ => exact absurd h id
  | node name items rest _ ih => rw [kids, ih h]

/-- A node is its properties and then its children. -/
theorem Ordered.eq_withProps {items : Items} (h : items.Ordered) :
    items = items.kids.withProps items.ownProps := by
  induction items with
  | nil => rfl
  | prop name value rest ih => exact congrArg (Items.prop name value) (ih h)
  | node name items rest _ ih =>
    rw [kids, ownProps, h.2.1.ownProps_eq, h.2.1.kids_eq]
    rfl

/-- If `f` gives orders of the nodes' properties, it gives a tree in another order. -/
theorem reorders_arrange {f : Bytes → List (Bytes × Bytes) → List (Bytes × Bytes)}
    (hf : ∀ path props, List.Perm props (f path props)) {items : Items} (h : items.Ordered)
    (path : Bytes) : items.Reorders (items.arrange f path) := by
  have hkids : ∀ (items : Items) (path : Bytes), items.Ordered →
      items.kids.Reorders (items.arrangeKids f path) := by
    intro items path h
    induction items generalizing path with
    | nil => exact .nil
    | prop name value rest ih => exact ih path h
    | node name items rest ih ih' =>
      have hitems : items.Reorders (items.arrange f (path ++ 0x2f :: name)) := by
        have hprops := Reorders.props (hf (path ++ 0x2f :: name) items.ownProps)
          items.noProps_kids (ih (path ++ 0x2f :: name) h.1)
        rwa [← h.1.eq_withProps] at hprops
      exact .node name hitems (ih' path h.2.2)
  have hprops := Reorders.props (hf path items.ownProps) items.noProps_kids (hkids items path h)
  rwa [← h.eq_withProps] at hprops

/-- The children have no properties in front. -/
theorem ownProps_arrangeKids {f : Bytes → List (Bytes × Bytes) → List (Bytes × Bytes)} (items : Items)
    (path : Bytes) : (items.arrangeKids f path).ownProps = [] := by
  induction items with
  | nil => rfl
  | prop name value rest ih => exact ih
  | node name items rest _ ih => exact ih

/-- The node's own properties are in the order that `f` gives. -/
theorem ownProps_arrange {f : Bytes → List (Bytes × Bytes) → List (Bytes × Bytes)} (items : Items)
    (path : Bytes) : (items.arrange f path).ownProps = f path items.ownProps := by
  rw [arrange, ownProps_withProps, ownProps_arrangeKids, List.append_nil]

end Items

end Ralix.Dtb
