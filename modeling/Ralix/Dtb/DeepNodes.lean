import Ralix.Dtb.Reads

/-!
# Nodes below level 32

The walks have room for 32 open nodes. The beginning of a node below that level is passed over, but its
end is taken for the end of the node around it. So after such a node the stack is one short, for the
rest of the node around, and what stands there is taken for a part of another node.

`undisturbed_iff` says when nothing comes of it: exactly if no property stands in such a node, or after
one. Then what comes after it is ends of nodes and nodes without properties, and a visitor's result
stays what it was (`Visitor.Settles`).
-/

namespace Ralix.Dtb

open Lib Mm MemoryMap

/-! ## Trees without the deep nodes -/

/-- What is left of a node without the nodes more than `k` levels below it. -/
def Items.prune : Items → ℕ → Items
  | .nil, _ => .nil
  | .prop name value rest, k => .prop name value (rest.prune k)
  | .node _ _ rest, 0 => rest.prune 0
  | .node name items rest, k + 1 => .node name (items.prune k) (rest.prune (k + 1))

/-- There is no property in a node, nor in the nodes below it. -/
def Items.Bare : Items → Prop
  | .nil => True
  | .prop _ _ _ => False
  | .node _ items rest => items.Bare ∧ rest.Bare

/-- Where there are no nodes so far below, nothing is left out. -/
theorem Items.prune_eq (items : Items) {k : ℕ} (h : items.height ≤ k) : items.prune k = items := by
  induction items generalizing k with
  | nil => rfl
  | prop name value rest ih =>
    rw [prune, ih h]
  | node name items rest ih ih' =>
    rw [height] at h
    obtain ⟨k, rfl⟩ := Nat.exists_eq_add_of_le' (show 1 ≤ k by omega)
    rw [prune, ih (by omega), ih' (by omega)]

/-- What is left reaches no further down. -/
theorem Items.height_prune (items : Items) (k : ℕ) : (items.prune k).height ≤ k := by
  induction items generalizing k with
  | nil => exact Nat.zero_le k
  | prop name value rest ih => exact ih k
  | node name items rest ih ih' =>
    cases k with
    | zero => exact ih' 0
    | succ k =>
      rw [prune, height]
      have hitems := ih k
      have hrest := ih' (k + 1)
      omega

/-- What is left of a node without properties has none. -/
theorem Items.Bare.prune {items : Items} (h : items.Bare) (k : ℕ) : (items.prune k).Bare := by
  induction items generalizing k with
  | nil => exact trivial
  | prop name value rest => exact h.elim
  | node name items rest ih ih' =>
    cases k with
    | zero => exact ih' h.2 0
    | succ k => exact ⟨ih h.1 k, ih' h.2 (k + 1)⟩

/-- Where only clean properties are left, and there has been a deep node, no property is left. -/
theorem Items.bare_of_deep {items : Items} {p : Place} (hdeep : p.deep = true)
    (hclean : ∀ r ∈ items.reads p, r.place.deep = false) : items.Bare := by
  induction items generalizing p with
  | nil => exact trivial
  | prop name value rest =>
    have hfalse := hclean _ List.mem_cons_self
    rw [hdeep] at hfalse
    cases hfalse
  | node name items rest ih ih' =>
    rw [reads, List.forall_mem_append] at hclean
    refine ⟨ih ?_ hclean.1, ih' ?_ hclean.2⟩
    · rw [Place.child, hdeep, Bool.true_or]
    · rw [Place.past, hdeep, Bool.true_or]

/-! ## Visitors that have settled -/

section Settles

variable {σ ρ F : Type} {v : Visitor σ ρ} {I : σ → Prop} {settle : σ → ρ}

/-- What a visitor returns if no further property comes. The beginnings and ends of nodes do not change
it. -/
structure Visitor.Settles (v : Visitor σ ρ) (I : σ → Prop) (settle : σ → ρ) : Prop extends v.Keeps I where
  beginNext : ∀ {s name s'}, I s → v.beginNode name s = .ok s' → settle s' = settle s
  endNext : ∀ {s s'}, I s → v.endNode s = .ok (.next s') → settle s' = settle s
  endDone : ∀ {s r}, I s → v.endNode s = .ok (.done r) → r = settle s

/-- What a part of a walk has settled on. -/
def outcome (settle : σ → ρ) : Exec (Iter σ ρ) → Exec ρ
  | .ok (.next s) => .ok (settle s)
  | .ok (.done r) => .ok r
  | .error e => .error e

/-- A part that changes nothing can follow. -/
theorem outcome_andThen {x : Exec (Iter σ ρ)} {f : σ → Exec (Iter σ ρ)}
    (h : ∀ s, x = .ok (.next s) → outcome settle (f s) = .ok (settle s)) :
    outcome settle (andThen x f) = outcome settle x := by
  cases x with
  | error e => rfl
  | ok i =>
    cases i with
    | next s => exact h s rfl
    | done r => rfl

/-- The end of a node changes nothing. -/
theorem Visitor.Settles.outcome_end (h : v.Settles I settle) {s : σ} (hs : I s) :
    outcome settle (v.endNode s) = .ok (settle s) := by
  obtain ⟨i, hi, -⟩ := h.endNode hs
  rw [hi]
  cases i with
  | next s' => exact congrArg Except.ok (h.endNext hs hi)
  | done r => exact congrArg Except.ok (h.endDone hs hi)

/-- Nor do nodes without properties. -/
theorem Visitor.Settles.outcome_bare (h : v.Settles I settle) {items : Items} (hbare : items.Bare)
    {s : σ} (hs : I s) : outcome settle (v.fold items s) = .ok (settle s) := by
  induction items generalizing s with
  | nil => rfl
  | prop name value rest => exact hbare.elim
  | node name items rest ih ih' =>
    obtain ⟨s₁, hbegin, hs₁⟩ := h.beginNode name hs
    have hitems : outcome settle (andThen (v.fold items s₁) v.endNode) = .ok (settle s₁) := by
      rw [outcome_andThen fun t ht => h.outcome_end (h.toKeeps.fold items hs₁ ht)]
      exact ih hbare.1 hs₁
    rw [Visitor.fold, hbegin, Exec.ok_bind, ← h.beginNext hs hbegin, ← hitems]
    refine outcome_andThen fun u hu => ih' hbare.2 ?_
    obtain ⟨t, ht, hend⟩ := andThen_eq_next hu
    exact h.inv_end (h.toKeeps.fold items hs₁ ht) hend

/-- A part of a walk settles on the same without the deep nodes, if no property is in or after one. -/
theorem Visitor.Settles.outcome_prune (h : v.Settles I settle) (items : Items) {s : σ} (hs : I s)
    {p : Place} {k : ℕ} (hlevel : p.path.length + k = 32)
    (hclean : ∀ r ∈ items.reads p, r.place.deep = false) :
    outcome settle (v.fold items s) = outcome settle (v.fold (items.prune k) s) := by
  induction items generalizing s p k with
  | nil => rfl
  | prop name value rest ih =>
    rw [Items.prune, Visitor.fold, Visitor.fold]
    cases hprop : v.prop name value s with
    | error e => rfl
    | ok i =>
      cases i with
      | next s' => exact ih (p := p.prop name value) (h.prop hs hprop) hlevel (List.forall_mem_cons.mp hclean).2
      | done r => rfl
  | node name items rest ih ih' =>
    rw [Items.reads, List.forall_mem_append] at hclean
    obtain ⟨hitems, hrest⟩ := hclean
    cases k with
    | zero =>
      -- The node is not there without the deep nodes, and there are no properties left.
      have hbare : items.Bare := by
        refine Items.bare_of_deep ?_ hitems
        rw [Place.child_deep_iff]
        omega
      have hbare' : rest.Bare := Items.bare_of_deep (Place.past_deep_iff.mpr (by omega)) hrest
      have hnode : (Items.node name items rest).Bare := ⟨hbare, hbare'⟩
      rw [Items.prune, h.outcome_bare hnode hs, h.outcome_bare (hbare'.prune 0) hs]
    | succ k =>
      obtain ⟨s₁, hbegin, hs₁⟩ := h.beginNode name hs
      have hlen : (p.child name items).path.length = p.path.length + 1 := Place.length_child
      have hinv : ∀ {x : Items} {u : σ}, andThen (v.fold x s₁) v.endNode = .ok (.next u) → I u := by
        intro x u hu
        obtain ⟨t, ht, hend⟩ := andThen_eq_next hu
        exact h.inv_end (h.toKeeps.fold x hs₁ ht) hend
      rw [Items.prune, Visitor.fold, Visitor.fold, hbegin, Exec.ok_bind, Exec.ok_bind]
      by_cases hdeep : (p.past items).deep = true
      · have hbare : rest.Bare := Items.bare_of_deep hdeep hrest
        rw [outcome_andThen fun u hu => h.outcome_bare hbare (hinv hu),
          outcome_andThen fun u hu => h.outcome_bare (hbare.prune (k + 1)) (hinv hu),
          outcome_andThen fun t ht => h.outcome_end (h.toKeeps.fold items hs₁ ht),
          outcome_andThen fun t ht => h.outcome_end (h.toKeeps.fold (items.prune k) hs₁ ht)]
        exact ih hs₁ (by omega) hitems
      · have hheight : items.height ≤ k := by
          rw [Place.past_deep_iff] at hdeep
          omega
        rw [items.prune_eq hheight]
        cases hx : andThen (v.fold items s₁) v.endNode with
        | error e => rfl
        | ok i =>
          cases i with
          | next u => exact ih' (p := p.past items) (hinv hx) hlevel hrest
          | done r => rfl

/-- A walk over a blob of a tree returns what it has settled on at the end of the tree. -/
theorem walk_eq_outcome {view : NodeContext → F} {frames : σ → List F} (htracks : v.Tracks I view frames)
    (h : v.Settles I settle) (hfinish : ∀ s, I s → frames s = [] → v.finish s = settle s) {b : Blob}
    {root : Bytes} {items : Items} (hflat : Flattens b root items) {s : σ} (hs : I s)
    (hempty : frames s = []) {s₁ : σ} (hbegin : v.beginNode root s = .ok s₁) :
    walk b v s = outcome settle (v.fold items s₁) := by
  have hs₁ := h.inv_begin hs hbegin
  have hstands := htracks.stands_root hs hempty hbegin items
  have hend : outcome settle (andThen (v.fold items s₁) v.endNode) = outcome settle (v.fold items s₁) :=
    outcome_andThen fun t ht => h.outcome_end (h.toKeeps.fold items hs₁ ht)
  rw [walk_flattens hflat, Visitor.fold, hbegin, Exec.ok_bind, ← hend]
  cases hx : andThen (v.fold items s₁) v.endNode with
  | error e => rfl
  | ok i =>
    cases i with
    | done r => rfl
    | next u =>
      -- At the end, no node is open.
      obtain ⟨t, ht, hu⟩ := andThen_eq_next hx
      have hinv := h.toKeeps.fold items hs₁ ht
      have hclosed := htracks.endTail hinv hu
      obtain ⟨-, -, hfinal⟩ := (htracks.follows.seen_reads items ⟨hs₁, hstands⟩).2 t ht
      obtain ⟨hpath, -⟩ := items.finish_spec (p := Place.root root items) (.inl (Nat.le_add_left 1 31))
      have hlen : (frames t).length ≤ 1 := by
        cases hdeep : (items.finish (Place.root root items)).deep with
        | false =>
          rw [(hfinal.clean hdeep).1]
          exact Nat.le_refl 1
        | true =>
          have hlt := hfinal.deep hdeep
          rw [hpath] at hlt
          exact hlt.le
      have hnil : frames u = [] := by
        rw [hclosed]
        exact List.eq_nil_of_length_eq_zero (by rw [List.length_tail]; omega)
      exact congrArg Except.ok (hfinish u (h.inv_end hinv hu) hnil)

/-- A walk returns the same over a blob of the tree without the deep nodes, if no property is in or
after one. -/
theorem walk_prune {view : NodeContext → F} {frames : σ → List F} (htracks : v.Tracks I view frames)
    (h : v.Settles I settle) (hfinish : ∀ s, I s → frames s = [] → v.finish s = settle s) {b b' : Blob}
    {root : Bytes} {items : Items} (hflat : Flattens b root items)
    (hflat' : Flattens b' root (items.prune 31)) {s : σ} (hs : I s) (hempty : frames s = [])
    (hclean : ∀ r ∈ treeReads root items, r.place.deep = false) : walk b v s = walk b' v s := by
  obtain ⟨s₁, hbegin, hs₁⟩ := h.beginNode root hs
  rw [walk_eq_outcome htracks h hfinish hflat hs hempty hbegin,
    walk_eq_outcome htracks h hfinish hflat' hs hempty hbegin]
  exact h.outcome_prune items hs₁ (p := Place.root root items) rfl hclean

end Settles

/-! ## The three walks -/

/-- `parse` settles on the calls that it has made. -/
theorem parseVisitor_settles : parseVisitor.Settles ParseState.Inv ParseState.calls where
  toKeeps := parseVisitor_keeps
  beginNext := by
    intro s name s' _ hbegin
    exact parseBegin_calls hbegin
  endNext := by
    intro s s' _ hend
    cases hend
    rw [parseEnd_eq]
  endDone := by
    intro s r _ hend
    cases hend

/-- `find_reg_by_path` settles on nothing. -/
theorem regVisitor_settles (target : Bytes) :
    (regVisitor target).Settles RegWalk.Inv fun _ => none where
  toKeeps := regVisitor_keeps target
  beginNext _ _ := rfl
  endNext _ _ := rfl
  endDone := by
    intro s r _ hend
    obtain ⟨t, -, hend⟩ := Exec.bind_eq_ok.mp hend
    cases hend

/-- What `find_simplefb` settles on: the innermost open node that is a frame buffer. -/
def SimpleFbWalk.settled (s : SimpleFbWalk) : Option SimpleFbInfo :=
  (upTo s.fbStack s.depth).findSome? SimpleFbState.info

/-- `find_simplefb` settles on the innermost open node that is a frame buffer. -/
theorem simplefbVisitor_settles : simplefbVisitor.Settles SimpleFbWalk.Inv SimpleFbWalk.settled where
  toKeeps := simplefbVisitor_keeps
  beginNext := by
    intro s name s' hs hbegin
    obtain ⟨ctx, -, ⟨-, hlt, rfl⟩ | ⟨-, rfl⟩⟩ := simplefbBegin_cases hbegin
    · show (upTo (s.fbStack.set s.depth SimpleFbState.new) (s.depth + 1)).findSome? _ = _
      rw [upTo_push hlt]
      rfl
    · rfl
  endNext := by
    intro s s' hs hend
    have hle := hs.depth_le.trans_eq hs.fbLength.symm
    obtain ⟨rfl, htop⟩ := simplefbEnd_next hend
    show (upTo s.fbStack (s.depth - 1)).findSome? _ = (upTo s.fbStack s.depth).findSome? _
    rw [upTo_pop hle]
    cases hstack : upTo s.fbStack s.depth with
    | nil => rfl
    | cons fb rest =>
      obtain ⟨fb', hfb, hnone⟩ := htop (pos_of_upTo hstack)
      rw [index_top hle hstack] at hfb
      cases hfb
      rw [List.tail_cons, List.findSome?_cons, hnone]
  endDone := by
    intro s r hs hend
    have hle := hs.depth_le.trans_eq hs.fbLength.symm
    obtain ⟨hpos, fb, info, hfb, hinfo, rfl⟩ := simplefbEnd_done hend
    obtain ⟨fb', rest, hstack⟩ := exists_top hpos hle
    rw [index_top hle hstack] at hfb
    cases hfb
    rw [SimpleFbWalk.settled, hstack, List.findSome?_cons, hinfo]

/-- The walks return the same over two blobs. -/
structure SameResults (b b' : Blob) : Prop where
  parse : parseCalls b = parseCalls b'
  simplefb : findSimplefbIn b = findSimplefbIn b'
  byPath : ∀ target, findRegIn b target = findRegIn b' target

/-- A walk comes to every property with as many open nodes as there are around it. -/
def AtOwnLevel {σ : Type} (depth : σ → ℕ) (reads : List Read) (log : List (Seen σ)) : Prop :=
  ∀ p ∈ reads.zip log, depth p.2.before = p.1.place.path.length

/-- The nodes below level 32 change nothing: the walks return the same without them, and come to every
property with the nodes open that are around it. -/
structure Undisturbed (b b' : Blob) (root : Bytes) (items : Items) : Prop extends SameResults b b' where
  parseLevels : AtOwnLevel ParseState.depth (treeReads root items) (parseLog b)
  simplefbLevels : AtOwnLevel SimpleFbWalk.depth (treeReads root items) (simplefbLog b)
  regLevels : ∀ target, AtOwnLevel RegWalk.depth (treeReads root items) (regLog b target)

/-- A walk comes to a property at its own level exactly if that is not in or after a deep node. -/
theorem atOwnLevel_iff {σ F : Type} {I : σ → Prop} {view : NodeContext → F} {frames : σ → List F}
    {depth : σ → ℕ} {reads : List Read} {log : List (Seen σ)}
    (h : AlongPrefix (Reads I view frames) reads log)
    (hdepth : ∀ s, I s → (frames s).length = depth s) :
    AtOwnLevel depth reads log ↔ ∀ r ∈ reads.take log.length, r.place.deep = false := by
  refine h.forall_zip_iff (P := fun r x => depth x.before = r.place.path.length) fun r _ x hx => ?_
  obtain ⟨outer, hstands⟩ := hx.stands
  rw [← hdepth _ hx.inv]
  cases hdeep : r.place.deep with
  | false =>
    obtain ⟨hframes, hlen, -⟩ := hstands.clean hdeep
    rw [hframes, List.length_cons, hlen]
    exact ⟨fun _ => rfl, fun _ => rfl⟩
  | true =>
    have hlt := hstands.deep hdeep
    exact ⟨fun heq => absurd heq hlt.ne, fun hfalse => absurd hfalse (by decide)⟩

instance (p : TreeProp) : Decidable p.Fits := by
  unfold TreeProp.Fits
  infer_instance

/-! ## Trees of 33 levels -/

/-- Nodes in one another. -/
def nested : ℕ → Items
  | 0 => .nil
  | n + 1 => .node [] (nested n) .nil

/-- A tree of 33 levels, with other nodes after the nested ones. -/
def deepTree (after : Items) : Items :=
  .prop (ascii "#address-cells") (be32 1)
    (.prop (ascii "#size-cells") (be32 1) (.node [] (nested 31) after))

/-- A memory node with a MiB at 1 GiB. -/
def memoryNode : Items :=
  .node (ascii "memory") (.prop (ascii "reg") (be32 0x40000000 ++ be32 0x100000) .nil) .nil

/-- The names of the properties. -/
def deepStrings : Bytes :=
  ascii "#address-cells" ++ [0] ++ ascii "#size-cells" ++ [0] ++ ascii "reg" ++ [0]

set_option maxRecDepth 8000 in
/-- A blob without anything after the deep node. -/
def loneBlob : Blob where
  totalSize := 600
  structBlock := structBytes deepStrings [] (deepTree .nil)
  stringsBlock := deepStrings
  struct_lt := by decide
  strings_lt := by decide

set_option maxRecDepth 8000 in
/-- It is a flattening of the tree. -/
theorem flattens_lone : Flattens loneBlob [] (deepTree .nil) :=
  flattens_structBytes rfl (by decide)

set_option maxRecDepth 8000 in
/-- A blob of that tree without the deep node. -/
def loneBlob' : Blob where
  totalSize := 600
  structBlock := structBytes deepStrings [] ((deepTree .nil).prune 31)
  stringsBlock := deepStrings
  struct_lt := by decide
  strings_lt := by decide

set_option maxRecDepth 8000 in
/-- It is a flattening of the tree. -/
theorem flattens_lone' : Flattens loneBlob' [] ((deepTree .nil).prune 31) :=
  flattens_structBytes rfl (by decide)

set_option maxRecDepth 8000 in
/-- A blob with a memory node after the deep node. -/
def followedBlob : Blob where
  totalSize := 600
  structBlock := structBytes deepStrings [] (deepTree memoryNode)
  stringsBlock := deepStrings
  struct_lt := by decide
  strings_lt := by decide

set_option maxRecDepth 8000 in
/-- It is a flattening of the tree. -/
theorem flattens_followed : Flattens followedBlob [] (deepTree memoryNode) :=
  flattens_structBytes rfl (by decide)

set_option maxRecDepth 8000 in
/-- A blob of that tree without the deep node. -/
def followedBlob' : Blob where
  totalSize := 600
  structBlock := structBytes deepStrings [] ((deepTree memoryNode).prune 31)
  stringsBlock := deepStrings
  struct_lt := by decide
  strings_lt := by decide

set_option maxRecDepth 8000 in
/-- It is a flattening of the tree. -/
theorem flattens_followed' : Flattens followedBlob' [] ((deepTree memoryNode).prune 31) :=
  flattens_structBytes rfl (by decide)

section Trees

variable {b b' : Blob} {root : Bytes} {items : Items}

/-- `parse` comes to every property at its own level exactly if none is in or after a deep node. -/
theorem parseLevels_iff (h : Flattens b root items) :
    AtOwnLevel ParseState.depth (treeReads root items) (parseLog b) ↔
      ∀ r ∈ (treeReads root items).take (parseLog b).length, r.place.deep = false :=
  atOwnLevel_iff (parseLog_reads h) fun _ hs => length_upTo (hs.depth_le.trans_eq hs.length.symm)

/-- The walks return the same without the deep nodes, if no property is in or after one. -/
theorem sameResults_prune (h : Flattens b root items) (h' : Flattens b' root (items.prune 31))
    (hclean : ∀ r ∈ treeReads root items, r.place.deep = false) : SameResults b b' where
  parse := walk_prune parseVisitor_tracks parseVisitor_settles (fun _ _ _ => rfl) h h'
    ParseState.inv_start rfl hclean
  simplefb := by
    refine walk_prune simplefbVisitor_tracks simplefbVisitor_settles (fun s hs hempty => ?_) h h'
      SimpleFbWalk.inv_start rfl hclean
    have hnil : upTo s.stack s.depth = [] := List.map_eq_nil_iff.mp hempty
    have hzero := eq_zero_of_upTo (hs.depth_le.trans_eq hs.length.symm) hnil
    rw [SimpleFbWalk.settled, hzero]
    rfl
  byPath target := walk_prune (regVisitor_tracks target) (regVisitor_settles target)
    (fun _ _ _ => rfl) h h' RegWalk.inv_start rfl hclean

/-- The nodes below level 32 change nothing if no property is in or after one. Where the cells fit in
every `reg` of the tree without them, they change nothing only if that is so. -/
theorem undisturbed_iff (h : Flattens b root items) (h' : Flattens b' root (items.prune 31)) :
    ((∀ r ∈ treeReads root items, r.place.deep = false) → Undisturbed b b' root items) ∧
      ((∀ p ∈ treeProps root (items.prune 31), p.Fits) →
        (Undisturbed b b' root items ↔ ∀ r ∈ treeReads root items, r.place.deep = false)) := by
  have hparse := parseLevels_iff h
  have hsufficient : (∀ r ∈ treeReads root items, r.place.deep = false) →
      Undisturbed b b' root items := by
    intro hclean
    refine ⟨sameResults_prune h h' hclean, ?_, ?_, fun target => ?_⟩
    · exact hparse.mpr fun r hr => hclean r (List.mem_of_mem_take hr)
    · refine (atOwnLevel_iff (simplefbLog_reads h) fun s hs => ?_).mpr fun r hr =>
        hclean r (List.mem_of_mem_take hr)
      rw [SimpleFbWalk.frames, List.length_map, length_upTo (hs.depth_le.trans_eq hs.length.symm)]
    · refine (atOwnLevel_iff (regLog_reads h target) fun s hs => ?_).mpr fun r hr =>
        hclean r (List.mem_of_mem_take hr)
      rw [RegWalk.frames, List.length_map, length_upTo (hs.depth_le.trans_eq hs.length.symm)]
  refine ⟨hsufficient, fun hfit => ⟨fun hundisturbed => ?_, hsufficient⟩⟩
  have hcalls : parseCalls b = .ok (treeCalls root (items.prune 31)) := by
    rw [hundisturbed.parse]
    exact (parse_tree h' (Nat.succ_le_succ (items.height_prune 31)) hfit).1
  have hall := (parseLog_all h hcalls).length_eq
  have hclean := hparse.mp hundisturbed.parseLevels
  rwa [← hall, List.take_length] at hclean

/-- Without a property in or after a deep node, that changes nothing. -/
theorem undisturbed_iff_lone : Undisturbed loneBlob loneBlob' [] (deepTree .nil) :=
  (undisturbed_iff flattens_lone flattens_lone').1 (by decide)

set_option maxRecDepth 8000 in
/-- A deep node changes what `parse` registers. -/
theorem not_sameResults : ¬∀ b b' root items, Flattens b root items →
    Flattens b' root (items.prune 31) → (∀ p ∈ treeProps root (items.prune 31), p.Fits) →
      SameResults b b' := by
  intro h
  have hsame := (h _ _ _ _ flattens_followed flattens_followed' (by decide)).parse
  rw [parseCalls, parseCalls, walk_flattens flattens_followed, walk_flattens flattens_followed'] at hsame
  revert hsame
  decide

end Trees

end Ralix.Dtb
