import Ralix.Dtb.Examined
import Ralix.Dtb.ParseTree
import Ralix.Dtb.Safety
import Ralix.Lib.Along
import Ralix.Lib.Stack

/-!
# Where properties stand, and where the walks read them

`treeReads` lists the properties of a device tree in document order, each with the place where it
stands: the names down to its node, the properties around it, and the context that a walk in document
order has there. The walks keep the open nodes in arrays of 32. A node below that level is not entered,
but its end is taken for that of the node around it, so from the first such node on the walks read
properties in the wrong place (`Place.deep`).

`Visitor.Follows.seen_reads` is the one induction: a walk comes to the properties of the tree in order,
each with what its visitor keeps from place to place. `Visitor.Tracks.examined_reads` is its use for a
walk whose stack does at each token what the tree says: the context of the place is on top of the stack
as long as there was no node below level 32, and there are too few open nodes from then on.
-/

namespace Ralix.Dtb

open Lib Mm MemoryMap

/-! ## Places -/

/-- A node's own properties, wherever its children stand between them. -/
def Items.ownProps : Items → List (Bytes × Bytes)
  | .nil => []
  | .prop name value rest => (name, value) :: rest.ownProps
  | .node _ _ rest => rest.ownProps

/-- Where a property stands. -/
structure Place where
  /-- The names from the root's on. -/
  path : List Bytes
  /-- What the node and its ancestors have before it. -/
  earlier : List (Bytes × Bytes)
  ctx : NodeContext
  /-- What the node has before it. -/
  before : List (Bytes × Bytes)
  /-- All that the node has. -/
  own : List (Bytes × Bytes)
  /-- All that the parent has, if there is one. -/
  parent : Option (List (Bytes × Bytes))
  /-- It is in a node below level 32, or after one in document order. -/
  deep : Bool

namespace Place

/-- The place at the beginning of the root. -/
def root (name : Bytes) (items : Items) : Place :=
  ⟨[name], [], NodeContext.root.child name, [], items.ownProps, none, false⟩

/-- The place after a property. -/
def prop (p : Place) (name value : Bytes) : Place :=
  { p with
    earlier := p.earlier ++ [(name, value)]
    ctx := p.ctx.update name value
    before := p.before ++ [(name, value)] }

/-- The place at the beginning of a child. -/
def child (p : Place) (name : Bytes) (items : Items) : Place where
  path := p.path ++ [name]
  earlier := p.earlier
  ctx := p.ctx.child name
  before := []
  own := items.ownProps
  parent := some p.own
  deep := p.deep || 32 ≤ p.path.length

/-- The place after a child. -/
def past (p : Place) (items : Items) : Place :=
  { p with deep := p.deep || 32 ≤ p.path.length + items.height }

end Place

/-- A property and where it stands. -/
structure Read where
  place : Place
  name : Bytes
  value : Bytes

/-- The properties of a node and of the nodes below it from a place on, in document order. -/
def Items.reads : Items → Place → List Read
  | .nil, _ => []
  | .prop name value rest, p => ⟨p, name, value⟩ :: rest.reads (p.prop name value)
  | .node name items rest, p => items.reads (p.child name items) ++ rest.reads (p.past items)

/-- The properties of a device tree, in document order. -/
def treeReads (root : Bytes) (items : Items) : List Read := items.reads (Place.root root items)

/-- The place at the end of a node. -/
def Items.finish : Items → Place → Place
  | .nil, p => p
  | .prop name value rest, p => rest.finish (p.prop name value)
  | .node _ items rest, p => rest.finish (p.past items)

namespace Place

variable {p : Place} {name : Bytes} {items : Items}

/-- A child is one level further down. -/
theorem length_child : (p.child name items).path.length = p.path.length + 1 := List.length_append

/-- A child of a node at level 32 is deep. -/
theorem child_deep_iff : (p.child name items).deep = true ↔ p.deep = true ∨ 32 ≤ p.path.length := by
  rw [child, Bool.or_eq_true, decide_eq_true_iff]

/-- Else it is entered as any. -/
theorem child_clean_iff :
    (p.child name items).deep = false ↔ p.deep = false ∧ p.path.length < 32 := by
  rw [child, Bool.or_eq_false_iff, decide_eq_false_iff_not, Nat.not_le]

/-- After a child there has been a deep node if the child reaches down to one. -/
theorem past_deep_iff :
    (p.past items).deep = true ↔ p.deep = true ∨ 32 ≤ p.path.length + items.height := by
  rw [past, Bool.or_eq_true, decide_eq_true_iff]

/-- Else it is left as any. -/
theorem past_clean_iff :
    (p.past items).deep = false ↔ p.deep = false ∧ p.path.length + items.height < 32 := by
  rw [past, Bool.or_eq_false_iff, decide_eq_false_iff_not, Nat.not_le]

end Place

/-- At the end of a node, the path is as at its beginning, and there has been a deep node if the node
reaches below level 32. -/
theorem Items.finish_spec (items : Items) {p : Place} (hp : p.path.length ≤ 32 ∨ p.deep = true) :
    (items.finish p).path = p.path ∧
      ((items.finish p).deep = true ↔ p.deep = true ∨ 32 < p.path.length + items.height) := by
  induction items generalizing p with
  | nil =>
    refine ⟨rfl, Or.inl, fun h => h.elim id fun hlt => ?_⟩
    exact hp.resolve_left (Nat.not_le.mpr hlt)
  | prop name value rest ih => exact ih hp
  | node name items rest _ ih =>
    -- a place is deep from the first node below the 32nd level on, and never again clean
    obtain ⟨hpath, hdeep⟩ := ih (hp.imp_right fun h => Place.past_deep_iff.mpr (.inl h))
    refine ⟨hpath, ?_⟩
    rw [finish, hdeep, Place.past_deep_iff, height]
    show _ ∨ 32 < p.path.length + rest.height ↔ _
    rw [or_assoc]
    refine or_congr_right ?_
    omega

/-- At the end of a child there has been a deep node exactly if there has been one after it. -/
theorem Place.finish_child {p : Place} {name : Bytes} {items : Items} :
    (items.finish (p.child name items)).path = p.path ++ [name] ∧
      ((items.finish (p.child name items)).deep = true ↔ (p.past items).deep = true) := by
  have hlevel : (p.child name items).path.length ≤ 32 ∨ (p.child name items).deep = true := by
    rw [child_deep_iff, length_child]
    omega
  obtain ⟨hpath, hdeep⟩ := items.finish_spec hlevel
  refine ⟨hpath, ?_⟩
  rw [hdeep, child_deep_iff, past_deep_iff, length_child, or_assoc]
  refine or_congr_right ?_
  omega

/-- In a tree that does not reach below level 32, no property is after a deep node. -/
theorem Items.reads_clean (items : Items) {p : Place} (hclean : p.deep = false)
    (hlevel : p.path.length + items.height ≤ 32) : ∀ r ∈ items.reads p, r.place.deep = false := by
  induction items generalizing p with
  | nil => exact List.forall_mem_nil _
  | prop name value rest ih =>
    rw [reads, List.forall_mem_cons]
    exact ⟨hclean, ih hclean hlevel⟩
  | node name items rest ih ih' =>
    rw [height] at hlevel
    rw [reads, List.forall_mem_append]
    constructor
    · refine ih (Place.child_clean_iff.mpr ⟨hclean, by omega⟩) ?_
      rw [Place.length_child]
      omega
    · refine ih' (Place.past_clean_iff.mpr ⟨hclean, by omega⟩) ?_
      show p.path.length + rest.height ≤ 32
      omega

/-! ## What follows the places -/

section Follows

variable {σ ρ Ω : Type}

/-- What a visitor keeps from place to place: `St` says what its variables are at a place, given what
they were around the node. It need only be shown at the beginning of a child, at a property, and, if it
holds at the end of a child, after it. -/
structure Visitor.Follows (v : Visitor σ ρ) (St : Ω → Place → σ → Prop) : Prop where
  child : ∀ {ω p s}, St ω p s → ∀ name items, ∃ ω' s', v.beginNode name s = .ok s' ∧
    St ω' (p.child name items) s' ∧ ∀ t s'', St ω' (items.finish (p.child name items)) t →
      v.endNode t = .ok (.next s'') → St ω (p.past items) s''
  prop : ∀ {ω p s s' name value}, St ω p s → v.prop name value s = .ok (.next s') →
    St ω (p.prop name value) s'

/-- A walk comes to a property with the variables of its place. -/
structure At (St : Ω → Place → σ → Prop) (r : Read) (x : Seen σ) : Prop where
  name : x.name = r.name
  value : x.value = r.value
  stands : ∃ ω, St ω r.place x.before

variable {v : Visitor σ ρ} {I : σ → Prop} {St : Ω → Place → σ → Prop}

/-- A walk over a tree comes to its properties in order, as far as it goes, each with the variables of
its place. If it goes on, it has come to all of them. -/
theorem Visitor.Follows.seen_reads (h : v.Follows St) (items : Items) {ω : Ω} {p : Place} {s : σ}
    (hst : St ω p s) : AlongPrefix (At St) (items.reads p) (v.seen items s) ∧
      ∀ s', v.fold items s = .ok (.next s') →
        List.Forall₂ (At St) (items.reads p) (v.seen items s) ∧ St ω (items.finish p) s' := by
  induction items generalizing ω p s with
  | nil =>
    refine ⟨⟨[], List.nil_prefix, .nil⟩, ?_⟩
    rintro s' ⟨⟩
    exact ⟨.nil, hst⟩
  | prop name value rest ih =>
    have hread : List.Forall₂ (At St) [⟨p, name, value⟩] [⟨name, value, s⟩] :=
      .cons ⟨rfl, rfl, ω, hst⟩ .nil
    rw [Items.reads, Visitor.seen]
    by_cases hnext : ∃ s₁, v.prop name value s = .ok (.next s₁)
    · obtain ⟨s₁, hprop⟩ := hnext
      obtain ⟨halong, hgo⟩ := ih (h.prop hst hprop)
      rw [hprop]
      refine ⟨AlongPrefix.append hread halong, fun s' hs' => ?_⟩
      rw [Visitor.fold, hprop] at hs'
      obtain ⟨hall, hst'⟩ := hgo s' hs'
      exact ⟨List.rel_append hread hall, hst'⟩
    · -- The walk ends at the property.
      rw [whenNext_eq_nil fun s₁ hprop => hnext ⟨s₁, hprop⟩]
      refine ⟨(AlongPrefix.of_forall₂ hread).extend _, fun s' hs' => ?_⟩
      obtain ⟨s₁, hprop, -⟩ := andThen_eq_next hs'
      exact absurd ⟨s₁, hprop⟩ hnext
  | node name items rest ih ih' =>
    obtain ⟨ω', s₁, hbegin, hchild, hend⟩ := h.child hst name items
    obtain ⟨halong, hgo⟩ := ih hchild
    rw [Items.reads, Visitor.seen, hbegin]
    dsimp only
    by_cases hnext : ∃ s₃, andThen (v.fold items s₁) v.endNode = .ok (.next s₃)
    · obtain ⟨s₃, hs₃⟩ := hnext
      obtain ⟨s₂, hs₂, hleave⟩ := andThen_eq_next hs₃
      obtain ⟨hall, hfinish⟩ := hgo s₂ hs₂
      obtain ⟨halong', hgo'⟩ := ih' (hend s₂ s₃ hfinish hleave)
      rw [hs₃]
      refine ⟨AlongPrefix.append hall halong', fun s' hs' => ?_⟩
      rw [Visitor.fold, hbegin, Exec.ok_bind, hs₃] at hs'
      obtain ⟨hall', hst'⟩ := hgo' s' hs'
      exact ⟨List.rel_append hall hall', hst'⟩
    · -- The walk ends in the child, or at its end.
      rw [whenNext_eq_nil fun s₃ hs₃ => hnext ⟨s₃, hs₃⟩, List.append_nil]
      refine ⟨halong.extend _, fun s' hs' => ?_⟩
      rw [Visitor.fold, hbegin, Exec.ok_bind] at hs'
      obtain ⟨s₃, hs₃, -⟩ := andThen_eq_next hs'
      exact absurd ⟨s₃, hs₃⟩ hnext

/-- So it does over a blob of a device tree, from the beginning of the root on. -/
theorem Visitor.Follows.examined_reads (h : v.Follows St) (hkeeps : v.Keeps I) {b : Blob} {root : Bytes}
    {items : Items} (hflat : Flattens b root items) {s s₁ : σ} (hs : I s)
    (hbegin : v.beginNode root s = .ok s₁) {ω : Ω} (hst : St ω (Place.root root items) s₁) :
    AlongPrefix (At St) (treeReads root items) (examined b v s) ∧
      ∀ s', v.fold (.node root items .nil) s = .ok (.next s') →
        List.Forall₂ (At St) (treeReads root items) (examined b v s) := by
  obtain ⟨halong, hgo⟩ := h.seen_reads items hst
  have hseen : examined b v s = v.seen items s₁ := by
    rw [(examined_eq hkeeps hflat hs).2, Visitor.seen, hbegin]
    show v.seen items s₁ ++ whenNext _ (fun _ => []) = _
    unfold whenNext
    split
    · exact List.append_nil _
    · exact List.append_nil _
  rw [hseen]
  refine ⟨halong, fun s' hs' => ?_⟩
  rw [Visitor.fold, hbegin, Exec.ok_bind] at hs'
  obtain ⟨s₃, hs₃, -⟩ := andThen_eq_next hs'
  obtain ⟨s₂, hs₂, -⟩ := andThen_eq_next hs₃
  exact (hgo s₂ hs₂).1

/-- Two things that follow the places do so together. -/
theorem Visitor.Follows.and {Ω' : Type} {St' : Ω' → Place → σ → Prop} (h : v.Follows St)
    (h' : v.Follows St') : v.Follows fun (ω : Ω × Ω') p s => St ω.1 p s ∧ St' ω.2 p s where
  child := by
    rintro ⟨ω, ω'⟩ p s ⟨hst, hst'⟩ name items
    obtain ⟨ω₁, s₁, hbegin, hchild, hend⟩ := h.child hst name items
    obtain ⟨ω₂, s₂, hbegin', hchild', hend'⟩ := h'.child hst' name items
    rw [hbegin] at hbegin'
    cases hbegin'
    refine ⟨⟨ω₁, ω₂⟩, s₁, hbegin, ⟨hchild, hchild'⟩, ?_⟩
    rintro t s'' ⟨ht, ht'⟩ hleave
    exact ⟨hend t s'' ht hleave, hend' t s'' ht' hleave⟩
  prop := fun ⟨hst, hst'⟩ hprop => ⟨h.prop hst hprop, h'.prop hst' hprop⟩

end Follows

/-! ## Stacks -/

section Tracks

variable {σ ρ F : Type}

/-- A visitor whose stack of open nodes, the innermost first, does at each token what the tree says. An
entry is a view of the context. At most 32 nodes are open. -/
structure Visitor.Tracks (v : Visitor σ ρ) (I : σ → Prop) (view : NodeContext → F)
    (frames : σ → List F) : Prop extends v.Keeps I where
  length_le : ∀ {s}, I s → (frames s).length ≤ 32
  beginRoot : ∀ {s name s'}, I s → v.beginNode name s = .ok s' → frames s = [] →
    frames s' = [view (NodeContext.root.child name)]
  beginChild : ∀ {s name s' ctx outer}, I s → v.beginNode name s = .ok s' →
    frames s = view ctx :: outer → (frames s).length < 32 →
      frames s' = view (ctx.child name) :: frames s
  beginLength : ∀ {s name s'}, I s → v.beginNode name s = .ok s' →
    (frames s').length ≤ (frames s).length + 1
  endTail : ∀ {s s'}, I s → v.endNode s = .ok (.next s') → frames s' = (frames s).tail
  propTop : ∀ {s name value s' ctx outer}, I s → v.prop name value s = .ok (.next s') →
    frames s = view ctx :: outer → frames s' = view (ctx.update name value) :: outer
  propLength : ∀ {s name value s'}, I s → v.prop name value s = .ok (.next s') →
    (frames s').length = (frames s).length

/-- The stack at a place, with the stack around the node. Once there has been a deep node, there are too
few open nodes. -/
structure Stands (view : NodeContext → F) (p : Place) (outer stack : List F) : Prop where
  clean : p.deep = false →
    stack = view p.ctx :: outer ∧ outer.length + 1 = p.path.length ∧ p.path.length ≤ 32
  deep : p.deep = true → stack.length < p.path.length

/-- What a walk comes to is the property of the tree, with the stack of its place. -/
structure Reads (I : σ → Prop) (view : NodeContext → F) (frames : σ → List F) (r : Read)
    (x : Seen σ) : Prop where
  name : x.name = r.name
  value : x.value = r.value
  inv : I x.before
  stands : ∃ outer, Stands view r.place outer (frames x.before)

variable {v : Visitor σ ρ} {I : σ → Prop} {view : NodeContext → F} {frames : σ → List F}

/-- The stack at the beginning of a child. -/
theorem Visitor.Tracks.stands_child (h : v.Tracks I view frames) {s s' : σ} (hs : I s) {p : Place}
    {outer : List F} (hstands : Stands view p outer (frames s)) {name : Bytes}
    (hbegin : v.beginNode name s = .ok s') (items : Items) :
    Stands view (p.child name items) (frames s) (frames s') := by
  have hle := h.beginLength hs hbegin
  refine ⟨fun hclean => ?_, fun hdeep => ?_⟩
  · obtain ⟨hclean, hlevel⟩ := Place.child_clean_iff.mp hclean
    obtain ⟨hframes, houter, -⟩ := hstands.clean hclean
    have hlt : (frames s).length < 32 := by
      rw [hframes, List.length_cons]
      omega
    refine ⟨h.beginChild hs hbegin hframes hlt, ?_, by rwa [Place.length_child]⟩
    rw [hframes, List.length_cons, houter, Place.length_child]
  · rw [Place.length_child]
    cases hd : p.deep with
    | true =>
      have hlt := hstands.deep hd
      omega
    | false =>
      -- The first deep node is not entered.
      have hle' := h.length_le (h.inv_begin hs hbegin)
      obtain ⟨-, -, hpath⟩ := hstands.clean hd
      have hlevel := (Place.child_deep_iff.mp hdeep).resolve_left (by rw [hd]; exact Bool.false_ne_true)
      omega

/-- The stack after a child. -/
theorem Visitor.Tracks.stands_past (h : v.Tracks I view frames) {s s' t : σ} {p : Place}
    {outer : List F} (hstands : Stands view p outer (frames s)) {name : Bytes} {items : Items}
    (ht : I t)
    (hchild : Stands view (items.finish (p.child name items)) (frames s) (frames t))
    (hend : v.endNode t = .ok (.next s')) : Stands view (p.past items) outer (frames s') := by
  have htail := h.endTail ht hend
  obtain ⟨hpath, hfinish⟩ : (items.finish (p.child name items)).path = _ ∧ _ := Place.finish_child
  have hpos : 0 < p.path.length := by
    cases hd : p.deep with
    | true => exact Nat.zero_lt_of_lt (hstands.deep hd)
    | false =>
      obtain ⟨-, houter, -⟩ := hstands.clean hd
      omega
  refine ⟨fun hclean => ?_, fun hdeep => ?_⟩
  · have hclean' := (Bool.eq_iff_iff.mpr hfinish).trans hclean
    rw [htail, (hchild.clean hclean').1, List.tail_cons]
    exact hstands.clean (Place.past_clean_iff.mp hclean).1
  · have hlt := hchild.deep (hfinish.mpr hdeep)
    rw [hpath, List.length_append, List.length_singleton] at hlt
    show (frames s').length < p.path.length
    rw [htail, List.length_tail]
    omega

/-- The stack after a property. -/
theorem Visitor.Tracks.stands_prop (h : v.Tracks I view frames) {s s' : σ} (hs : I s) {p : Place}
    {outer : List F} (hstands : Stands view p outer (frames s)) {name value : Bytes}
    (hprop : v.prop name value s = .ok (.next s')) :
    Stands view (p.prop name value) outer (frames s') := by
  refine ⟨fun hclean => ?_, fun hdeep => ?_⟩
  · obtain ⟨hframes, houter, hpath⟩ := hstands.clean hclean
    exact ⟨h.propTop hs hprop hframes, houter, hpath⟩
  · rw [h.propLength hs hprop]
    exact hstands.deep hdeep

/-- The stack follows the places. -/
theorem Visitor.Tracks.follows (h : v.Tracks I view frames) :
    v.Follows fun outer p s => I s ∧ Stands view p outer (frames s) where
  child := by
    rintro outer p s ⟨hs, hstands⟩ name items
    obtain ⟨s', hbegin, hs'⟩ := h.beginNode name hs
    refine ⟨frames s, s', hbegin, ⟨hs', h.stands_child hs hstands hbegin items⟩, ?_⟩
    rintro t s'' ⟨ht, hchild⟩ hend
    exact ⟨h.inv_end ht hend, h.stands_past hstands ht hchild hend⟩
  prop := by
    rintro outer p s s' name value ⟨hs, hstands⟩ hprop
    exact ⟨h.prop hs hprop, h.stands_prop hs hstands hprop⟩

/-- The stack at the beginning of the root. -/
theorem Visitor.Tracks.stands_root (h : v.Tracks I view frames) {s s' : σ} (hs : I s)
    (hempty : frames s = []) {root : Bytes} (hbegin : v.beginNode root s = .ok s') (items : Items) :
    Stands view (Place.root root items) [] (frames s') := by
  refine ⟨fun _ => ⟨h.beginRoot hs hbegin hempty, rfl, Nat.le_add_left 1 31⟩, fun hdeep => ?_⟩
  cases hdeep

/-- A walk over a blob of a device tree comes to the properties of the tree in order, as far as it goes,
each with the stack of its place. -/
theorem Visitor.Tracks.examined_reads (h : v.Tracks I view frames) {b : Blob} {root : Bytes}
    {items : Items} (hflat : Flattens b root items) {s : σ} (hs : I s) (hempty : frames s = []) :
    AlongPrefix (Reads I view frames) (treeReads root items) (examined b v s) ∧
      ∀ s', v.fold (.node root items .nil) s = .ok (.next s') →
        List.Forall₂ (Reads I view frames) (treeReads root items) (examined b v s) := by
  obtain ⟨s₁, hbegin, hs₁⟩ := h.beginNode root hs
  have hroot := h.stands_root hs hempty hbegin items
  obtain ⟨halong, hall⟩ := h.follows.examined_reads h.toKeeps hflat hs hbegin ⟨hs₁, hroot⟩
  have himp : ∀ r x, At (fun outer p s => I s ∧ Stands view p outer (frames s)) r x →
      Reads I view frames r x := by
    rintro r x ⟨hname, hvalue, outer, hinv, hstands⟩
    exact ⟨hname, hvalue, hinv, outer, hstands⟩
  exact ⟨halong.imp himp, fun s' hs' => (hall s' hs').imp himp⟩

end Tracks

/-! ## Stacks in an array -/

section Stacks

variable {σ ρ E F : Type}

/-- How a walk keeps its open nodes in the first places of an array: the array and their number, the
entry in which the root begins, the entry of a node that begins in one, and what an entry says. -/
structure NodeStack (σ E F : Type) where
  entries : σ → List E
  depth : σ → ℕ
  start : E
  enter : Bytes → E → E
  cell : E → F

/-- What the open nodes say, the innermost first. -/
def NodeStack.frames (k : NodeStack σ E F) (s : σ) : List F := (upTo (k.entries s) (k.depth s)).map k.cell

/-- The entry that a node begins in. -/
def NodeStack.around (k : NodeStack σ E F) (s : σ) : Exec E :=
  if k.depth s = 0 then .ok k.start else index (k.entries s) (k.depth s - 1)

/-- What the tokens do to an array of 32 places: a node that begins is pushed if there is room, one that
ends is popped, and a property changes the top. -/
structure Visitor.Stacks (v : Visitor σ ρ) (I : σ → Prop) (view : NodeContext → F)
    (k : NodeStack σ E F) : Prop extends v.Keeps I where
  depth_le : ∀ {s}, I s → k.depth s ≤ 32
  length : ∀ {s}, I s → (k.entries s).length = 32
  cell_start : k.cell k.start = view NodeContext.root
  cell_enter : ∀ {e ctx}, k.cell e = view ctx → ∀ name, k.cell (k.enter name e) = view (ctx.child name)
  begins : ∀ {s name s'}, v.beginNode name s = .ok s' → ∃ e, k.around s = .ok e ∧
    (k.depth s < (k.entries s).length ∧ k.entries s' = (k.entries s).set (k.depth s) (k.enter name e) ∧
        k.depth s' = k.depth s + 1 ∨
      (k.entries s).length ≤ k.depth s ∧ k.entries s' = k.entries s ∧ k.depth s' = k.depth s)
  ends : ∀ {s s'}, v.endNode s = .ok (.next s') →
    k.entries s' = k.entries s ∧ k.depth s' = k.depth s - 1
  props : ∀ {s name value s'}, v.prop name value s = .ok (.next s') → k.depth s' = k.depth s ∧
    (k.depth s = 0 ∨ ∃ e e', index (k.entries s) (k.depth s - 1) = .ok e ∧
      k.entries s' = (k.entries s).set (k.depth s - 1) e' ∧
      ∀ ctx, k.cell e = view ctx → k.cell e' = view (ctx.update name value))

namespace Visitor.Stacks

variable {v : Visitor σ ρ} {I : σ → Prop} {view : NodeContext → F} {k : NodeStack σ E F} {s s' : σ}
  {name value : Bytes}

/-- There are as many open nodes as the depth says. -/
theorem length_frames (h : v.Stacks I view k) (hs : I s) : (k.frames s).length = k.depth s := by
  rw [NodeStack.frames, List.length_map, length_upTo ((h.depth_le hs).trans_eq (h.length hs).symm)]

/-- The root is pushed. -/
theorem beginRoot (h : v.Stacks I view k) (hs : I s) (hbegin : v.beginNode name s = .ok s')
    (hempty : k.frames s = []) : k.frames s' = [view (NodeContext.root.child name)] := by
  have hzero : k.depth s = 0 := by rw [← h.length_frames hs, hempty, List.length_nil]
  obtain ⟨e, he, hcases⟩ := h.begins hbegin
  rw [NodeStack.around, if_pos hzero] at he
  cases he
  rcases hcases with ⟨hlt, hentries, hdepth⟩ | ⟨hge, -, -⟩
  · rw [NodeStack.frames, hentries, hdepth, upTo_push hlt, List.map_cons, h.cell_enter h.cell_start name]
    exact congrArg _ hempty
  · rw [h.length hs, hzero] at hge
    exact absurd hge (by decide)

/-- A child is pushed, if there is room. -/
theorem beginChild (h : v.Stacks I view k) (hs : I s) (hbegin : v.beginNode name s = .ok s')
    {ctx : NodeContext} {outer : List F} (htop : k.frames s = view ctx :: outer)
    (hlt : (k.frames s).length < 32) : k.frames s' = view (ctx.child name) :: k.frames s := by
  obtain ⟨e, rest, hstack, hcell, -⟩ := List.map_eq_cons_iff.mp htop
  have hne : k.depth s ≠ 0 := Nat.ne_of_gt (pos_of_upTo hstack)
  obtain ⟨e', he', hcases⟩ := h.begins hbegin
  rw [NodeStack.around, if_neg hne, index_top ((h.depth_le hs).trans_eq (h.length hs).symm) hstack] at he'
  cases he'
  rcases hcases with ⟨hroom, hentries, hdepth⟩ | ⟨hge, -, -⟩
  · rw [NodeStack.frames, hentries, hdepth, upTo_push hroom, List.map_cons, h.cell_enter hcell name]
    rfl
  · rw [h.length_frames hs] at hlt
    rw [h.length hs] at hge
    exact absurd hge (Nat.not_le.mpr hlt)

/-- The top is popped. -/
theorem endTail (h : v.Stacks I view k) (hs : I s) (hend : v.endNode s = .ok (.next s')) :
    k.frames s' = (k.frames s).tail := by
  obtain ⟨hentries, hdepth⟩ := h.ends hend
  rw [NodeStack.frames, hentries, hdepth, upTo_pop ((h.depth_le hs).trans_eq (h.length hs).symm),
    List.map_tail]
  rfl

/-- The top is changed. -/
theorem propTop (h : v.Stacks I view k) (hs : I s) (hprop : v.prop name value s = .ok (.next s'))
    {ctx : NodeContext} {outer : List F} (htop : k.frames s = view ctx :: outer) :
    k.frames s' = view (ctx.update name value) :: outer := by
  have hle := (h.depth_le hs).trans_eq (h.length hs).symm
  obtain ⟨e, rest, hstack, hcell, hrest⟩ := List.map_eq_cons_iff.mp htop
  have hpos := pos_of_upTo hstack
  obtain ⟨hdepth, hzero | ⟨e₀, e', he₀, hentries, hcell'⟩⟩ := h.props hprop
  · exact absurd hzero (Nat.ne_of_gt hpos)
  · rw [index_top hle hstack] at he₀
    cases he₀
    rw [NodeStack.frames, hdepth, hentries, upTo_setTop hpos hle, hstack, List.tail_cons, List.map_cons,
      hcell' ctx hcell, hrest]

/-- A visitor that keeps its open nodes in an array does at each token what the tree says. -/
theorem tracks (h : v.Stacks I view k) : v.Tracks I view k.frames where
  toKeeps := h.toKeeps
  length_le hs := (h.length_frames hs).trans_le (h.depth_le hs)
  beginRoot := h.beginRoot
  beginChild hs hbegin htop hlt := h.beginChild hs hbegin htop hlt
  beginLength := by
    intro s name s' hs hbegin
    rw [h.length_frames hs, h.length_frames (h.inv_begin hs hbegin)]
    obtain ⟨-, -, ⟨-, -, hdepth⟩ | ⟨-, -, hdepth⟩⟩ := h.begins hbegin
    · exact hdepth.le
    · exact hdepth.le.trans (Nat.le_succ _)
  endTail := h.endTail
  propTop hs hprop htop := h.propTop hs hprop htop
  propLength := by
    intro s name value s' hs hprop
    rw [h.length_frames hs, h.length_frames (h.prop hs hprop)]
    exact (h.props hprop).1

end Visitor.Stacks

end Stacks

/-! ## The three walks -/

/-- The contexts of the open nodes in `parse`, the innermost first. -/
def ParseState.frames (s : ParseState) : List NodeContext := upTo s.stack s.depth

/-- The array of `parse`. -/
def ParseState.nodes : NodeStack ParseState NodeContext NodeContext where
  entries := ParseState.stack
  depth := ParseState.depth
  start := NodeContext.root
  enter name ctx := ctx.child name
  cell := id

/-- What `parse` does to its array. -/
theorem parseVisitor_stacks : parseVisitor.Stacks ParseState.Inv id ParseState.nodes where
  toKeeps := parseVisitor_keeps
  depth_le hs := hs.depth_le
  length hs := hs.length
  cell_start := rfl
  cell_enter := by
    rintro e ctx ⟨⟩ name
    rfl
  begins := by
    intro s name s' hbegin
    obtain ⟨parent, ctx, hparent, hctx, hcases⟩ := parseBegin_cases hbegin
    rw [NodeContext.enter_eq] at hctx
    cases hctx
    refine ⟨parent, hparent, ?_⟩
    rcases hcases with ⟨hlt, rfl⟩ | ⟨hge, rfl⟩
    · exact .inl ⟨hlt, rfl, rfl⟩
    · exact .inr ⟨hge, rfl, rfl⟩
  ends := by
    intro s s' hend
    cases hend
    rw [parseEnd_eq]
    exact ⟨rfl, rfl⟩
  props := by
    intro s name value s' hprop
    obtain ⟨t, ht, hcases⟩ := parseProp_cases hprop
    cases ht
    rcases hcases with ⟨hzero, rfl⟩ | ⟨-, ctx, hctx, ⟨hreg, calls, -, rfl⟩ | ⟨-, ctx', hctx', rfl⟩⟩
    · exact ⟨rfl, .inl hzero⟩
    · -- A `reg` writes nothing to the array.
      refine ⟨rfl, .inr ⟨ctx, ctx, hctx, (set_of_index hctx).symm, ?_⟩⟩
      rintro c rfl
      rw [hreg, NodeContext.update_reg]
      rfl
    · rw [NodeContext.prop_eq] at hctx'
      cases hctx'
      refine ⟨rfl, .inr ⟨ctx, _, hctx, rfl, ?_⟩⟩
      rintro c ⟨⟩
      rfl

/-- The stack of `parse`. -/
theorem parseVisitor_tracks : parseVisitor.Tracks ParseState.Inv id ParseState.frames := by
  have hframes : ParseState.nodes.frames = ParseState.frames := funext fun s => List.map_id _
  exact hframes ▸ parseVisitor_stacks.tracks

/-- The cell counts of a node, for addresses and for sizes. -/
structure Cells where
  addr : UInt32
  size : UInt32
deriving DecidableEq, Repr

/-- The cell counts after a property. -/
def Cells.update (c : Cells) (name value : Bytes) : Cells :=
  if name = ascii "#address-cells" ∧ 4 ≤ value.length then { c with addr := word32 (value.take 4) }
  else if name = ascii "#size-cells" ∧ 4 ≤ value.length then { c with size := word32 (value.take 4) }
  else c

/-- The cell counts after some properties. -/
def Cells.after (c : Cells) (props : List (Bytes × Bytes)) : Cells :=
  props.foldl (fun c p => c.update p.1 p.2) c

/-- The cell counts of a context. -/
def NodeContext.cells (ctx : NodeContext) : Cells := ⟨ctx.addrCells, ctx.sizeCells⟩

/-- The cell counts of an entry of the array of `find_reg_by_path`. -/
def RegNode.cells (node : RegNode) : Cells := ⟨node.addrCells, node.sizeCells⟩

/-- A property changes the cell counts of a context as it changes cell counts. -/
theorem NodeContext.cells_update (ctx : NodeContext) (name value : Bytes) :
    (ctx.update name value).cells = ctx.cells.update name value := by
  unfold update Cells.update
  split_ifs
  · rfl
  · rfl
  · rfl
  · rfl

/-- `find_simplefb` takes over the cell counts of a property. -/
theorem NodeContext.cellsProp_cells {ctx ctx' : NodeContext} {name value : Bytes}
    (h : ctx.cellsProp name value = .ok ctx') : ctx'.cells = ctx.cells.update name value := by
  unfold cellsProp at h
  rw [u32Or_eq, u32Or_eq] at h
  unfold Cells.update
  by_cases hlen : 4 ≤ value.length
  · simp only [hlen, and_true, if_true] at h ⊢
    split_ifs at h ⊢
    · cases h
      rfl
    · cases h
      rfl
    · cases h
      rfl
  · simp only [hlen, and_false, if_false] at h ⊢
    split_ifs at h
    · cases h
      rfl
    · cases h
      rfl
    · cases h
      rfl

/-- The cell counts of the open nodes in `find_simplefb`. -/
def SimpleFbWalk.frames (s : SimpleFbWalk) : List Cells := (upTo s.stack s.depth).map NodeContext.cells

/-- The array of `find_simplefb`. -/
def SimpleFbWalk.nodes : NodeStack SimpleFbWalk NodeContext Cells where
  entries := SimpleFbWalk.stack
  depth := SimpleFbWalk.depth
  start := NodeContext.root
  enter _ ctx := ctx
  cell := NodeContext.cells

/-- What `find_simplefb` does to its array. -/
theorem simplefbVisitor_stacks :
    simplefbVisitor.Stacks SimpleFbWalk.Inv NodeContext.cells SimpleFbWalk.nodes where
  toKeeps := simplefbVisitor_keeps
  depth_le hs := hs.depth_le
  length hs := hs.length
  cell_start := rfl
  cell_enter he _ := he
  begins := by
    intro s name s' hbegin
    obtain ⟨ctx, hctx, hcases⟩ := simplefbBegin_cases hbegin
    refine ⟨ctx, hctx, ?_⟩
    rcases hcases with ⟨hlt, -, rfl⟩ | ⟨hge, rfl⟩
    · exact .inl ⟨hlt, rfl, rfl⟩
    · exact .inr ⟨hge, rfl, rfl⟩
  ends := by
    intro s s' hend
    obtain rfl := (simplefbEnd_next hend).1
    exact ⟨rfl, rfl⟩
  props := by
    intro s name value s' hprop
    rcases simplefbProp_cases hprop with ⟨hzero, rfl⟩ | ⟨-, ctx, fb, ctx', fb', hctx, -, hctx', -, rfl⟩
    · exact ⟨rfl, .inl hzero⟩
    · refine ⟨rfl, .inr ⟨ctx, ctx', hctx, rfl, fun c hc => ?_⟩⟩
      show ctx'.cells = _
      rw [NodeContext.cellsProp_cells hctx', show ctx.cells = c.cells from hc, NodeContext.cells_update]

/-- The stack of `find_simplefb`. -/
theorem simplefbVisitor_tracks :
    simplefbVisitor.Tracks SimpleFbWalk.Inv NodeContext.cells SimpleFbWalk.frames :=
  simplefbVisitor_stacks.tracks

/-- The loop over the entries of a `ranges` leaves the cell counts as they are. -/
theorem rangesLoop_cells {a p s : UInt32} {value : Bytes} {entryBytes n pos : ℕ} {node node' : RegNode}
    (h : rangesLoop a p s value entryBytes n pos node = .ok node') : node'.cells = node.cells := by
  induction n generalizing pos node with
  | zero =>
    cases h
    rfl
  | succ n ih =>
    rw [rangesLoop] at h
    split at h
    · obtain ⟨range, -, h⟩ := Exec.bind_eq_ok.mp h
      obtain ⟨ranges, -, h⟩ := Exec.bind_eq_ok.mp h
      have hcells := ih h
      exact hcells
    · cases h
      rfl

/-- `find_reg_by_path` takes over the cell counts of a property. -/
theorem RegNode.prop_cells {node node' : RegNode} {p : UInt32} {name value : Bytes}
    (h : node.prop p name value = .ok node') : node'.cells = node.cells.update name value := by
  have haddr : ascii "ranges" ≠ ascii "#address-cells" := by decide
  have hsize : ascii "ranges" ≠ ascii "#size-cells" := by decide
  unfold prop at h
  rw [u32Or_eq, u32Or_eq] at h
  by_cases hranges : name = ascii "ranges"
  · subst hranges
    rw [if_neg haddr, if_neg hsize, if_pos rfl] at h
    rw [Cells.update, if_neg (fun h => haddr h.1), if_neg (fun h => hsize h.1)]
    unfold regRanges at h
    dsimp only at h
    split at h
    · cases h
      rfl
    · have hcells := rangesLoop_cells h
      exact hcells
  unfold Cells.update
  by_cases hlen : 4 ≤ value.length
  · simp only [hlen, and_true, if_true, hranges, if_false] at h ⊢
    split_ifs at h ⊢
    · cases h
      rfl
    · cases h
      rfl
    · cases h
      rfl
  · simp only [hlen, and_false, if_false, hranges] at h ⊢
    split_ifs at h
    · cases h
      rfl
    · cases h
      rfl
    · cases h
      rfl

/-- The cell counts of the open nodes in `find_reg_by_path`. -/
def RegWalk.frames (s : RegWalk) : List Cells := (upTo s.stack s.depth).map RegNode.cells

/-- What `find_reg_by_path` does to its stack at the beginning of a node. -/
theorem regBegin_stack {s s' : RegWalk} {name : Bytes} (hbegin : regBegin name s = .ok s') :
    ∃ parent, regParentOf s.stack s.depth = .ok parent ∧
      (s.depth < s.stack.length ∧ s'.stack = s.stack.set s.depth { parent with rangesLen := 0 } ∧
          s'.depth = s.depth + 1 ∨
        s.stack.length ≤ s.depth ∧ s'.stack = s.stack ∧ s'.depth = s.depth) := by
  obtain ⟨lens, path, parent, -, -, hparent, hcases⟩ := regBegin_cases hbegin
  refine ⟨parent, hparent, ?_⟩
  obtain ⟨hlt, rfl⟩ | ⟨hge, rfl⟩ := hcases
  · exact .inl ⟨hlt, rfl, rfl⟩
  · exact .inr ⟨hge, rfl, rfl⟩

/-- What it does to its stack at the end of one. -/
theorem regEnd_stack {s s' : RegWalk} (hend : regEnd s = .ok s') :
    s'.stack = s.stack ∧ s'.depth = s.depth - 1 := by
  obtain ⟨len, -, -, rfl⟩ | ⟨hzero, rfl⟩ := regEnd_cases hend
  · exact ⟨rfl, rfl⟩
  · exact ⟨rfl, by rw [hzero]⟩

/-- What it does to its stack at a property. -/
theorem regProp_stack {target : Bytes} {s s' : RegWalk} {name value : Bytes}
    (hprop : regProp target name value s = .ok (.next s')) : s'.depth = s.depth ∧
      (s.depth = 0 ∧ s'.stack = s.stack ∨
        ∃ node p node', 0 < s.depth ∧ index s.stack (s.depth - 1) = .ok node ∧
          parentAddrCells s = .ok p ∧ node.prop p name value = .ok node' ∧
          s'.stack = s.stack.set (s.depth - 1) node') := by
  refine ⟨(regProp_frame hprop).1, ?_⟩
  obtain ⟨hzero, heq⟩ | ⟨node, p, node', hpos, hnode, hp, hnode', hcases⟩ := regProp_cases hprop
  · cases heq
    exact .inl ⟨hzero, rfl⟩
  · refine .inr ⟨node, p, node', hpos, hnode, hp, hnode', ?_⟩
    obtain ⟨-, htarget⟩ | ⟨-, heq⟩ := hcases
    · exact (regTarget_frame htarget).2.1
    · cases heq
      rfl

/-- The array of `find_reg_by_path`. -/
def RegWalk.nodes : NodeStack RegWalk RegNode Cells where
  entries := RegWalk.stack
  depth := RegWalk.depth
  start := RegNode.root
  enter _ node := { node with rangesLen := 0 }
  cell := RegNode.cells

/-- What `find_reg_by_path` does to its array. -/
theorem regVisitor_stacks (target : Bytes) :
    (regVisitor target).Stacks RegWalk.Inv NodeContext.cells RegWalk.nodes where
  toKeeps := regVisitor_keeps target
  depth_le hs := hs.depth_le
  length hs := hs.length
  cell_start := rfl
  cell_enter he _ := he
  begins hbegin := regBegin_stack hbegin
  ends := by
    intro s s' hend
    obtain ⟨t, ht, hend⟩ := Exec.bind_eq_ok.mp hend
    cases hend
    exact regEnd_stack ht
  props := by
    intro s name value s' hprop
    obtain ⟨hdepth, ⟨hzero, -⟩ | ⟨node, p, node', -, hnode, -, hnode', hstack⟩⟩ := regProp_stack hprop
    · exact ⟨hdepth, .inl hzero⟩
    · refine ⟨hdepth, .inr ⟨node, node', hnode, hstack, fun ctx hctx => ?_⟩⟩
      show node'.cells = _
      rw [RegNode.prop_cells hnode', show node.cells = ctx.cells from hctx, NodeContext.cells_update]

/-- The stack of `find_reg_by_path`. -/
theorem regVisitor_tracks (target : Bytes) :
    (regVisitor target).Tracks RegWalk.Inv NodeContext.cells RegWalk.frames :=
  (regVisitor_stacks target).tracks

/-! ## What the walks come to -/

/-- The properties of a blob that `parse` comes to. -/
def parseLog (b : Blob) : List (Seen ParseState) := examined b parseVisitor ParseState.start

/-- The properties of a blob that `find_simplefb` comes to. -/
def simplefbLog (b : Blob) : List (Seen SimpleFbWalk) :=
  examined b simplefbVisitor SimpleFbWalk.start

/-- The properties of a blob that `find_reg_by_path` comes to. -/
def regLog (b : Blob) (target : Bytes) : List (Seen RegWalk) :=
  examined b (regVisitor target) RegWalk.start

/-- The log of a walk has the properties of a tree in document order, as far as it goes. -/
def InOrder {σ : Type} (reads : List Read) (log : List (Seen σ)) : Prop :=
  log.map (fun x => (x.name, x.value)) <+: reads.map fun r => (r.name, r.value)

/-- A walk that keeps to a tree comes to its properties in document order. -/
theorem inOrder_of_reads {σ F : Type} {I : σ → Prop} {view : NodeContext → F} {frames : σ → List F}
    {reads : List Read} {log : List (Seen σ)} (h : AlongPrefix (Reads I view frames) reads log) :
    InOrder reads log :=
  h.map_prefix fun r x hx => by rw [hx.name, hx.value]

/-- `parse` does not return at a property. -/
theorem parseProp_ne_done (name value : Bytes) (s : ParseState) (r : List Call) :
    parseProp name value s ≠ .ok (.done r) := by
  intro h
  obtain ⟨s', hs', -⟩ := parseProp_cases h
  cases hs'

/-- `parse` does not return before the end of a tree. -/
theorem fold_ne_done (items : Items) (s : ParseState) (r : List Call) :
    parseVisitor.fold items s ≠ .ok (.done r) := by
  intro h
  induction items generalizing s r with
  | nil => cases h
  | prop name value rest ih =>
    obtain ⟨i, hi, h⟩ := Exec.bind_eq_ok.mp h
    cases i with
    | next t => exact ih t r h
    | done r' => exact parseProp_ne_done _ _ _ _ hi
  | node name items rest ih ih' =>
    obtain ⟨t, -, h⟩ := Exec.bind_eq_ok.mp h
    obtain ⟨i, hi, h⟩ := Exec.bind_eq_ok.mp h
    cases i with
    | next u => exact ih' u r h
    | done r' =>
      obtain ⟨j, hj, hi⟩ := Exec.bind_eq_ok.mp hi
      cases j with
      | next w => cases hi
      | done r'' => exact ih t r'' hj

section Trees

variable {b : Blob} {root : Bytes} {items : Items}

/-- `parse` keeps to the tree. -/
theorem parseLog_reads (h : Flattens b root items) :
    AlongPrefix (Reads ParseState.Inv id ParseState.frames) (treeReads root items) (parseLog b) :=
  (parseVisitor_tracks.examined_reads h ParseState.inv_start rfl).1

/-- If `parse` gets through, it has come to all of the tree. -/
theorem parseLog_all (h : Flattens b root items) {calls : List Call} (hcalls : parseCalls b = .ok calls) :
    List.Forall₂ (Reads ParseState.Inv id ParseState.frames) (treeReads root items) (parseLog b) := by
  rw [parseCalls, walk_flattens h] at hcalls
  obtain ⟨i, hi, -⟩ := Exec.bind_eq_ok.mp hcalls
  cases i with
  | next s => exact (parseVisitor_tracks.examined_reads h ParseState.inv_start rfl).2 s hi
  | done r => exact absurd hi (fold_ne_done _ _ _)

/-- `find_simplefb` keeps to the tree. -/
theorem simplefbLog_reads (h : Flattens b root items) :
    AlongPrefix (Reads SimpleFbWalk.Inv NodeContext.cells SimpleFbWalk.frames) (treeReads root items)
      (simplefbLog b) :=
  (simplefbVisitor_tracks.examined_reads h SimpleFbWalk.inv_start rfl).1

/-- `find_reg_by_path` keeps to the tree. -/
theorem regLog_reads (h : Flattens b root items) (target : Bytes) :
    AlongPrefix (Reads RegWalk.Inv NodeContext.cells RegWalk.frames) (treeReads root items)
      (regLog b target) :=
  ((regVisitor_tracks target).examined_reads h RegWalk.inv_start rfl).1

end Trees

end Ralix.Dtb
