import Ralix.Dtb.ScanTree

/-!
# The node with a path on device trees

What `find_reg_by_path` does on a blob of a device tree. `Items.uartProps` lists the properties of a
tree in document order, each with the full path of its node, the cell counts in force at it, and the
ranges of the node's ancestors from the inside out. `findReg_info` shows that the walk finds the first
`reg` with the target's path that has an entry, translates its address through the first four ranges of
each of those nodes, and returns it with the settings that come before the `reg`. `findReg_tree` is the
case where no node has more ranges.

The walk keeps the path in one buffer with the lengths of the paths around it, and the nodes in an
array. `RegWalk.Open` says that these are the path and the nodes that are open. A child is entered and
left with the same open nodes, and the properties of its ancestors are all known by then, because they
come before the children.
-/

namespace Ralix.Dtb

open Lib

/-! ## Properties with paths and ranges -/

/-- What an open node's properties have said of it: its cell counts and its ranges. -/
structure UartNode where
  addrCells : UInt32
  sizeCells : UInt32
  ranges : List Range
deriving DecidableEq, Repr

/-- The node that the root begins in. -/
def UartNode.root : UartNode := ⟨2, 2, []⟩

/-- A child begins with its parent's cell counts, and without ranges. -/
def UartNode.enter (node : UartNode) : UartNode := { node with ranges := [] }

/-- The bytes of an entry of a `ranges`, with `p` address cells of the parent. -/
def UartNode.rangeBytes (node : UartNode) (p : UInt32) : ℕ :=
  node.addrCells.toNat * 4 + p.toNat * 4 + node.sizeCells.toNat * 4

/-- The entry of a `ranges` at `pos`: the base in the node, the base in its parent, and the size. -/
def UartNode.rangeAt (node : UartNode) (p : UInt32) (value : Bytes) (pos : ℕ) : Range where
  childBase := word64 ((value.drop pos).take (node.addrCells.toNat * 4))
  parentBase := word64 ((value.drop (pos + node.addrCells.toNat * 4)).take (p.toNat * 4))
  size := word64 ((value.drop (pos + node.addrCells.toNat * 4 + p.toNat * 4)).take
    (node.sizeCells.toNat * 4))

/-- The entries of a `ranges`. -/
def UartNode.rangeEntries (node : UartNode) (p : UInt32) (value : Bytes) : List Range :=
  (List.range (value.length / node.rangeBytes p)).map fun i =>
    node.rangeAt p value (i * node.rangeBytes p)

/-- The node after a property. -/
def UartNode.update (node : UartNode) (p : UInt32) (name value : Bytes) : UartNode :=
  if name = ascii "#address-cells" ∧ 4 ≤ value.length then
    { node with addrCells := word32 (value.take 4) }
  else if name = ascii "#size-cells" ∧ 4 ≤ value.length then
    { node with sizeCells := word32 (value.take 4) }
  else if name = ascii "ranges" ∧ 0 < node.rangeBytes p then
    { node with ranges := node.rangeEntries p value }
  else node

/-- The node after all its properties, wherever its children stand between them. -/
def Items.own (p : UInt32) : Items → UartNode → UartNode
  | .nil, cur => cur
  | .prop name value rest, cur => rest.own p (cur.update p name value)
  | .node _ _ rest, cur => rest.own p cur

/-- A property of a device tree: its node's full path, the ranges of the node's ancestors from the
inside out, the parent's address cells, and what the node's properties before it have said. -/
structure UartProp where
  path : Bytes
  outer : List (List Range)
  parentCells : UInt32
  node : UartNode
  name : Bytes
  value : Bytes
deriving DecidableEq, Repr

/-- The properties of a node and of the nodes below it, in document order. The node is `own` after all
its properties. -/
def Items.uartProps : Items → Bytes → List (List Range) → UInt32 → UartNode → UartNode → List UartProp
  | .nil, _, _, _, _, _ => []
  | .prop name value rest, path, outer, p, own, cur =>
    ⟨path, outer, p, cur, name, value⟩ :: rest.uartProps path outer p own (cur.update p name value)
  | .node name items rest, path, outer, p, own, cur =>
    items.uartProps (path ++ 0x2f :: name) (own.ranges :: outer) own.addrCells
        (items.own own.addrCells own.enter) own.enter ++
      rest.uartProps path outer p own cur

/-- The root's path: nothing, for a root without a name. -/
def rootPath (root : Bytes) : Bytes := if root = [] then [] else 0x2f :: root

/-- The properties of a device tree, in document order. -/
def uartProps (root : Bytes) (items : Items) : List UartProp :=
  items.uartProps (rootPath root) [] 0 (items.own 0 UartNode.root) UartNode.root

/-- The paths of the nodes below a node. -/
def Items.paths (path : Bytes) : Items → List Bytes
  | .nil => []
  | .prop _ _ rest => rest.paths path
  | .node name items rest =>
    (path ++ 0x2f :: name) :: (items.paths (path ++ 0x2f :: name) ++ rest.paths path)

/-- There is no property among what is left of a node. -/
def Items.NoProps : Items → Prop
  | .nil => True
  | .prop _ _ _ => False
  | .node _ _ rest => rest.NoProps

/-- Properties come before children, in every node. -/
def Items.Ordered : Items → Prop
  | .nil => True
  | .prop _ _ rest => rest.Ordered
  | .node _ items rest => items.Ordered ∧ rest.NoProps ∧ rest.Ordered

/-- The sum of the cell counts in force does not overflow, at a `reg` or a `ranges`. -/
structure UartProp.NoOverflow (p : UartProp) : Prop where
  reg : p.name = ascii "reg" → p.node.addrCells.toNat + p.node.sizeCells.toNat < 2^32
  ranges : p.name = ascii "ranges" →
    p.node.addrCells.toNat + p.parentCells.toNat + p.node.sizeCells.toNat < 2^32

/-- The first entry of a `reg`, if there is one: its address and its size. -/
def UartProp.first? (p : UartProp) : Option (UInt64 × UInt64) :=
  let addrBytes := p.node.addrCells.toNat * 4
  let sizeBytes := p.node.sizeCells.toNat * 4
  if p.name = ascii "reg" ∧ 0 < addrBytes + sizeBytes ∧ addrBytes + sizeBytes ≤ p.value.length then
    some (word64 (p.value.take addrBytes), word64 ((p.value.drop addrBytes).take sizeBytes))
  else none

/-- An address through the ranges of one node: the first range that it is in translates it. -/
def throughRanges (ranges : List Range) (addr : UInt64) : Option UInt64 :=
  if ranges = [] then some addr else ranges.findSome? fun r => r.map addr

/-- An address through the ranges of the ancestors, from the inside out. -/
def throughAll : List (List Range) → UInt64 → Option UInt64
  | [], addr => some addr
  | ranges :: outer, addr => throughRanges ranges addr >>= throughAll outer

/-- The address for the CPU. Below the RP1's path there is a fixup where the translation fails or
yields an address below 4 GiB. -/
def UartProp.phys (p : UartProp) (addr : UInt64) : Option UInt64 :=
  if rp1Prefix <+: p.path then
    match throughAll p.outer addr with
    | none => some (rp1Fixup addr)
    | some phys => if phys < 0x100000000 then some (rp1Fixup addr) else some phys
  else throughAll p.outer addr

/-- The address for the CPU and the size, of the first entry. -/
def UartProp.result (p : UartProp) : Option (UInt64 × UInt64) := do
  let (addr, size) ← p.first?
  let phys ← p.phys addr
  return (phys, size)

/-- A `reg` with an entry, of a node with the target's path. -/
def UartProp.Hit (target : Bytes) (p : UartProp) : Prop := p.path = target ∧ p.first?.isSome

instance (target : Bytes) (p : UartProp) : Decidable (p.Hit target) := by
  unfold UartProp.Hit
  infer_instance

/-- The address and the size of the first node in document order that has the target's path and a
`reg` with an entry. -/
def regOf (root : Bytes) (items : Items) (target : Bytes) : Option (UInt64 × UInt64) :=
  (uartProps root items).find? (fun p => p.Hit target) >>= UartProp.result

/-! ## Settings -/

/-- What a UART's properties say besides its address and size. -/
structure UartSettings where
  regShift : UInt32
  regIoWidth : UInt32
  clockHz : Option UInt32
  skipInit : Bool
deriving DecidableEq, Repr

/-- The settings before the loop. -/
def UartSettings.start : UartSettings := ⟨0, 4, none, false⟩

/-- The settings after a property of the UART's node. -/
def UartSettings.update (u : UartSettings) (name value : Bytes) : UartSettings :=
  if name = ascii "reg-shift" ∧ 4 ≤ value.length then { u with regShift := word32 (value.take 4) }
  else if name = ascii "reg-io-width" ∧ 4 ≤ value.length then
    { u with regIoWidth := word32 (value.take 4) }
  else if name = ascii "clock-frequency" ∧ 4 ≤ value.length then
    { u with clockHz := some (word32 (value.take 4)) }
  else if name = ascii "skip-init" then { u with skipInit := true }
  else u

/-- A UART at an address and of a size, with the settings. -/
def UartSettings.info (u : UartSettings) (place : UInt64 × UInt64) : UartInfo :=
  ⟨place.1, place.2, u.regShift, u.regIoWidth, u.clockHz, u.skipInit⟩

/-- The settings of a UART. -/
def UartInfo.settings (info : UartInfo) : UartSettings :=
  ⟨info.regShift, info.regIoWidth, info.clockHz, info.skipInit⟩

/-- The settings that the walk holds. -/
def RegWalk.settings (s : RegWalk) : UartSettings :=
  ⟨s.regShift, s.regIoWidth, s.clockHz, s.skipInit⟩

/-- The settings after a property, of the node with the target's path or another. -/
def UartSettings.see (target : Bytes) (u : UartSettings) (p : UartProp) : UartSettings :=
  if p.path = target then u.update p.name p.value else u

/-- The settings at the first `reg` that is looked for, or after all properties if there is none. -/
def settingsAt (target : Bytes) : List UartProp → UartSettings → UartSettings
  | [], u => u
  | p :: rest, u => if p.Hit target then u else settingsAt target rest (u.see target p)

/-- The settings at a `reg` in the first part. -/
theorem settingsAt_append_of_hit {target : Bytes} {ps : List UartProp} {p : UartProp}
    (h : ps.find? (fun p => p.Hit target) = some p) (ps' : List UartProp) (u : UartSettings) :
    settingsAt target (ps ++ ps') u = settingsAt target ps u := by
  induction ps generalizing u with
  | nil => cases h
  | cons q rest ih =>
    rw [List.cons_append, settingsAt, settingsAt]
    by_cases hhit : q.Hit target
    · rw [if_pos hhit, if_pos hhit]
    · rw [List.find?_cons_of_neg (by simpa using hhit)] at h
      rw [if_neg hhit, if_neg hhit, ih h]

/-- The settings after a part without the `reg`. -/
theorem settingsAt_append_of_miss {target : Bytes} {ps : List UartProp}
    (h : ps.find? (fun p => p.Hit target) = none) (ps' : List UartProp) (u : UartSettings) :
    settingsAt target (ps ++ ps') u = settingsAt target ps' (settingsAt target ps u) := by
  induction ps generalizing u with
  | nil => rfl
  | cons q rest ih =>
    have hhit : ¬q.Hit target := by
      intro hhit
      rw [List.find?_cons_of_pos (by simpa using hhit)] at h
      cases h
    rw [List.find?_cons_of_neg (by simpa using hhit)] at h
    rw [List.cons_append, settingsAt, settingsAt, if_neg hhit, if_neg hhit, ih h]

/-- A property that is none of the settings leaves them. -/
theorem UartSettings.update_of_ne (u : UartSettings) {name : Bytes} (hshift : name ≠ ascii "reg-shift")
    (hwidth : name ≠ ascii "reg-io-width") (hclock : name ≠ ascii "clock-frequency")
    (hskip : name ≠ ascii "skip-init") (value : Bytes) : u.update name value = u := by
  rw [update, if_neg (fun h => hshift h.1), if_neg (fun h => hwidth h.1), if_neg (fun h => hclock h.1),
    if_neg hskip]

/-- What is done at a property of the node that is looked for sets the settings. -/
theorem regTarget_settings {s s' : RegWalk} {node : RegNode} {name value : Bytes}
    (h : regTarget s node name value = .ok (.next s')) :
    s'.settings = s.settings.update name value := by
  unfold regTarget at h
  rw [u32Or_eq, u32Or_eq] at h
  unfold UartSettings.update
  by_cases hlen : 4 ≤ value.length
  · rw [readBeU32_eq hlen] at h
    simp only [hlen, and_true, if_true] at h ⊢
    split_ifs at h ⊢ with hshift hwidth hclock hskip hreg
    · cases h
      rfl
    · cases h
      rfl
    · cases h
      rfl
    · cases h
      rfl
    · obtain rfl := regFound_next h
      rfl
    · cases h
      rfl
  · simp only [hlen, and_false, if_false] at h ⊢
    split_ifs at h with hshift hwidth hclock hskip hreg
    · cases h
      rw [hshift, if_neg (by decide)]
    · cases h
      rw [hwidth, if_neg (by decide)]
    · cases h
      rw [hclock, if_neg (by decide)]
    · cases h
      rw [if_pos hskip]
      rfl
    · obtain rfl := regFound_next h
      rw [if_neg hskip]
    · cases h
      rw [if_neg hskip]

/-! ## The first four ranges -/

/-- A node with its first four ranges. -/
def UartNode.cut (node : UartNode) : UartNode := { node with ranges := node.ranges.take 4 }

/-- A property with the first four ranges of each node. -/
def UartProp.cut (p : UartProp) : UartProp :=
  { p with outer := p.outer.map (List.take 4), node := p.node.cut }

/-- The address and the size of the first node that has the target's path and a `reg` with an entry, if
only the first four ranges of a node count. -/
def regOfFour (root : Bytes) (items : Items) (target : Bytes) : Option (UInt64 × UInt64) :=
  (uartProps root items).find? (fun p => p.Hit target) >>= fun p => p.cut.result

/-- A property does to what is left of a node what it does to the node. -/
theorem UartNode.cut_update (node : UartNode) (p : UInt32) (name value : Bytes) :
    (node.cut.update p name value).cut = (node.update p name value).cut := by
  have hbytes : node.cut.rangeBytes p = node.rangeBytes p := rfl
  have hentries : node.cut.rangeEntries p value = node.rangeEntries p value := rfl
  have hcut : (node.ranges.take 4).take 4 = node.ranges.take 4 := by
    rw [List.take_take, Nat.min_self]
  unfold update
  rw [hbytes, hentries]
  split_ifs
  · exact congrArg (UartNode.mk _ _) hcut
  · exact congrArg (UartNode.mk _ _) hcut
  · rfl
  · exact congrArg (UartNode.mk _ _) hcut

/-! ## Cells -/

/-- What an entry of the array says of a node. -/
def RegNode.abs (node : RegNode) : UartNode :=
  ⟨node.addrCells, node.sizeCells, node.ranges.take node.rangesLen⟩

/-- The entry of a `ranges` at a position is read. -/
theorem rangesEntry_eq {node : UartNode} {p : UInt32} {value : Bytes} {pos : ℕ}
    (hsum : node.addrCells.toNat + p.toNat + node.sizeCells.toNat < 2^32)
    (h : pos + node.rangeBytes p ≤ value.length) :
    rangesEntry node.addrCells p node.sizeCells value (node.rangeBytes p) pos =
      .ok (node.rangeAt p value pos) := by
  have heq : node.rangeBytes p =
    node.addrCells.toNat * 4 + p.toNat * 4 + node.sizeCells.toNat * 4 := rfl
  have hap : (node.addrCells + p).toNat = node.addrCells.toNat + p.toNat := by
    rw [UInt32.toNat_add]
    omega
  have hchild : ((value.drop pos).take (node.addrCells.toNat * 4)).length =
      node.addrCells.toNat * 4 := by
    rw [List.length_take, List.length_drop]
    omega
  have hparent : ((value.drop (pos + node.addrCells.toNat * 4)).take (p.toNat * 4)).length =
      p.toNat * 4 := by
    rw [List.length_take, List.length_drop]
    omega
  have hsize : ((value.drop (pos + node.addrCells.toNat * 4 + p.toNat * 4)).take
      (node.sizeCells.toNat * 4)).length = node.sizeCells.toNat * 4 := by
    rw [List.length_take, List.length_drop]
    omega
  have hmid : pos + (node.addrCells + p).toNat * 4 =
      pos + node.addrCells.toNat * 4 + p.toNat * 4 := by omega
  have hend : pos + node.rangeBytes p =
      pos + node.addrCells.toNat * 4 + p.toNat * 4 + node.sizeCells.toNat * 4 := by omega
  rw [rangesEntry, hmid, hend, slice_ok (by omega) (by omega), Exec.ok_bind, Nat.add_sub_cancel_left,
    readAddrCells_eq hchild, Exec.ok_bind, slice_ok (by omega) (by omega), Exec.ok_bind,
    Nat.add_sub_cancel_left, readCellsTrunc_eq hparent, Exec.ok_bind,
    slice_ok (by omega) (by omega), Exec.ok_bind, Nat.add_sub_cancel_left, readCells_eq hsize]
  rfl

/-- The loop over the entries of a `ranges` from the `k`-th on, up to the fourth. -/
theorem rangesLoop_eq {abs : UartNode} {p : UInt32} {value : Bytes}
    (hsum : abs.addrCells.toNat + p.toNat + abs.sizeCells.toNat < 2^32)
    (hpos : 0 < abs.rangeBytes p) {n k m : ℕ}
    (hm : k + m = min 4 (value.length / abs.rangeBytes p)) (hn : m ≤ n) (node : RegNode)
    (hnode : node.ranges.length = 4) (hk : node.rangesLen = k) :
    ∃ node', rangesLoop abs.addrCells p abs.sizeCells value (abs.rangeBytes p) n
        (k * abs.rangeBytes p) node = .ok node' ∧
      node'.addrCells = node.addrCells ∧ node'.sizeCells = node.sizeCells ∧
      node'.ranges.take node'.rangesLen = node.ranges.take k ++
        (List.range' k m).map fun i => abs.rangeAt p value (i * abs.rangeBytes p) := by
  induction n generalizing k m node with
  | zero =>
    obtain rfl : m = 0 := by omega
    exact ⟨node, rfl, rfl, rfl, by rw [hk, List.range'_zero, List.map_nil, List.append_nil]⟩
  | succ n ih =>
    cases m with
    | zero =>
      -- the loop ends at the fourth entry, or where no entry is left
      have hend : ¬(k * abs.rangeBytes p + abs.rangeBytes p ≤ value.length ∧
          node.rangesLen < node.ranges.length) := by
        rw [entry_fits_iff hpos]
        omega
      rw [rangesLoop, if_neg hend]
      exact ⟨node, rfl, rfl, rfl, by rw [hk, List.range'_zero, List.map_nil, List.append_nil]⟩
    | succ m =>
      have hentry : k * abs.rangeBytes p + abs.rangeBytes p ≤ value.length := by
        rw [entry_fits_iff hpos]
        omega
      have hroom : node.rangesLen < node.ranges.length := by omega
      rw [rangesLoop, if_pos ⟨hentry, hroom⟩, rangesEntry_eq hsum hentry, Exec.ok_bind,
        setIndex_ok hroom, Exec.ok_bind, ← Nat.succ_mul, Nat.succ_eq_add_one]
      obtain ⟨node', hloop, haddr, hsize, hranges⟩ := ih (k := k + 1) (m := m) (by omega) (by omega)
        ⟨node.addrCells, node.sizeCells,
          node.ranges.set node.rangesLen (abs.rangeAt p value (k * abs.rangeBytes p)),
          node.rangesLen + 1⟩
        (List.length_set.trans hnode) (congrArg Nat.succ hk)
      refine ⟨node', hloop, haddr, hsize, ?_⟩
      rw [hranges, List.range'_succ, List.map_cons, ← hk, take_set_succ hroom, List.append_assoc]
      rfl

/-- A `ranges` gives a node its first four entries. -/
theorem regRanges_eq {node : RegNode} (hnode : node.Inv) {p : UInt32} {value : Bytes}
    (hsum : node.addrCells.toNat + p.toNat + node.sizeCells.toNat < 2^32) :
    ∃ node', regRanges node p value = .ok node' ∧
      node'.abs = if 0 < node.abs.rangeBytes p then
        { node.abs with ranges := (node.abs.rangeEntries p value).take 4 } else node.abs := by
  have hbytes : (node.addrCells + p + node.sizeCells).toNat * 4 = node.abs.rangeBytes p := by
    show _ = node.addrCells.toNat * 4 + p.toNat * 4 + node.sizeCells.toNat * 4
    rw [UInt32.toNat_add, UInt32.toNat_add]
    omega
  unfold regRanges
  dsimp only
  by_cases hpos : 0 < node.abs.rangeBytes p
  · have hcount : min 4 (value.length / node.abs.rangeBytes p) ≤ value.length :=
      (Nat.min_le_right 4 _).trans (Nat.div_le_self _ _)
    have hsum' : node.abs.addrCells.toNat + p.toNat + node.abs.sizeCells.toNat < 2^32 := hsum
    obtain ⟨node', hloop, haddr, hsize, hranges⟩ := rangesLoop_eq hsum' hpos
      (Nat.zero_add _) hcount { node with rangesLen := 0 } hnode.length rfl
    rw [Nat.zero_mul] at hloop
    rw [if_neg (by omega), hbytes, if_pos hpos]
    refine ⟨node', hloop, ?_⟩
    rw [RegNode.abs, haddr, hsize, hranges, UartNode.rangeEntries, ← List.map_take, List.take_range,
      List.range_eq_range']
    rfl
  · rw [if_pos (by omega), if_neg hpos]
    exact ⟨node, rfl, rfl⟩

/-- An entry of the array has four ranges at most. -/
theorem RegNode.cut_abs {node : RegNode} (hnode : node.Inv) : node.abs.cut = node.abs := by
  have hlen := hnode.length
  have hle := hnode.len_le
  refine congrArg (UartNode.mk _ _) (List.take_of_length_le ?_)
  show (node.ranges.take node.rangesLen).length ≤ 4
  rw [List.length_take]
  omega

/-- A property updates a node, of which the first four ranges are kept. -/
theorem RegNode.prop_eq {node : RegNode} (hnode : node.Inv) {p : UInt32} {name value : Bytes}
    (hsum : name = ascii "ranges" →
      node.addrCells.toNat + p.toNat + node.sizeCells.toNat < 2^32) :
    ∃ node', node.prop p name value = .ok node' ∧
      node'.abs = (node.abs.update p name value).cut := by
  unfold prop UartNode.update
  by_cases hranges : name = ascii "ranges"
  · subst hranges
    have haddr : ascii "ranges" ≠ ascii "#address-cells" := by decide
    have hsize : ascii "ranges" ≠ ascii "#size-cells" := by decide
    obtain ⟨node', hnode', habs⟩ : ∃ node', regRanges node p value = .ok node' ∧ node'.abs = _ :=
      regRanges_eq hnode (hsum rfl)
    refine ⟨node', by rw [if_neg haddr, if_neg hsize, if_pos rfl, hnode'], ?_⟩
    simp only [habs, haddr, hsize, false_and, if_false, true_and]
    split_ifs
    · rfl
    · exact (RegNode.cut_abs hnode).symm
  have hcut : ∀ a c, ({ node with addrCells := a, sizeCells := c } : RegNode).abs =
      UartNode.cut { node.abs with addrCells := a, sizeCells := c } := fun a c =>
    congrArg (UartNode.mk a c) (congrArg UartNode.ranges (RegNode.cut_abs hnode)).symm
  simp only [hranges, false_and, if_false, u32Or_eq]
  by_cases hlen : 4 ≤ value.length
  · simp only [hlen, and_true, if_true]
    split_ifs
    · exact ⟨_, rfl, hcut _ _⟩
    · exact ⟨_, rfl, hcut _ _⟩
    · exact ⟨_, rfl, hcut _ _⟩
  · simp only [hlen, and_false, if_false]
    split_ifs
    · exact ⟨_, rfl, hcut _ _⟩
    · exact ⟨_, rfl, hcut _ _⟩
    · exact ⟨_, rfl, hcut _ _⟩

/-- The first entry of a `reg` is read. -/
theorem firstReg_eq (p : UartProp) {node : RegNode} (hnode : node.abs = p.node)
    (hreg : p.name = ascii "reg") (hsum : p.node.addrCells.toNat + p.node.sizeCells.toNat < 2^32) :
    firstReg node p.value = .ok p.first? := by
  have haddrCells : node.addrCells = p.node.addrCells := congrArg UartNode.addrCells hnode
  have hsizeCells : node.sizeCells = p.node.sizeCells := congrArg UartNode.sizeCells hnode
  have hcells : (p.node.addrCells + p.node.sizeCells).toNat =
      p.node.addrCells.toNat + p.node.sizeCells.toNat := by
    rw [UInt32.toNat_add]
    omega
  unfold firstReg UartProp.first?
  dsimp only
  rw [haddrCells, hsizeCells, hcells]
  by_cases hzero : p.node.addrCells.toNat + p.node.sizeCells.toNat = 0
  · rw [if_pos hzero, if_neg (by omega)]
  rw [if_neg hzero]
  by_cases hlen : p.value.length < (p.node.addrCells.toNat + p.node.sizeCells.toNat) * 4
  · rw [if_pos hlen, if_neg (by omega)]
  have haddr : (p.value.take (p.node.addrCells.toNat * 4)).length = p.node.addrCells.toNat * 4 := by
    rw [List.length_take]
    omega
  have hsize : ((p.value.drop (p.node.addrCells.toNat * 4)).take
      (p.node.sizeCells.toNat * 4)).length = p.node.sizeCells.toNat * 4 := by
    rw [List.length_take, List.length_drop]
    omega
  have hend : (p.node.addrCells.toNat + p.node.sizeCells.toNat) * 4 =
      p.node.addrCells.toNat * 4 + p.node.sizeCells.toNat * 4 := by omega
  rw [if_neg hlen, if_pos ⟨hreg, by omega, by omega⟩, hend, slice_ok (Nat.zero_le _) (by omega),
    Exec.ok_bind, List.drop_zero, Nat.sub_zero, readAddrCells_eq haddr, Exec.ok_bind,
    slice_ok (by omega) (by omega), Exec.ok_bind, Nat.add_sub_cancel_left, readCells_eq hsize]
  rfl

/-! ## The decoders of addresses -/

/-- `find_reg_by_path` reads the first entry of a `reg` as `parse` does. -/
theorem firstReg_eq_regEntry {ctx : NodeContext} {node : RegNode}
    (haddr : node.addrCells = ctx.addrCells) (hsize : node.sizeCells = ctx.sizeCells)
    {entryBytes : ℕ} (hbytes : entryBytes = (ctx.addrCells + ctx.sizeCells).toNat * 4)
    (value : Bytes) :
    firstReg node value = if entryBytes = 0 ∨ value.length < entryBytes then .ok none
      else some <$> regEntry ctx value entryBytes 0 := by
  unfold firstReg regEntry
  rw [haddr, hsize]
  dsimp only
  by_cases hzero : (ctx.addrCells + ctx.sizeCells).toNat = 0
  · rw [if_pos hzero, if_pos (Or.inl (by omega))]
  rw [if_neg hzero]
  by_cases hlen : value.length < entryBytes
  · rw [if_pos (by omega), if_pos (Or.inr hlen)]
  have haddrs := slice_readAddrCells value 0 ctx.addrCells
  rw [Nat.zero_add] at haddrs
  rw [if_neg (by omega), if_neg (by omega), Nat.zero_add, ← hbytes, ← bind_assoc, haddrs, bind_assoc,
    map_eq_pure_bind]
  simp only [bind_assoc, pure_bind, Nat.zero_add]

/-- `find_reg_by_path` reads the entries of a `ranges` with the reader that `parse` has for `reg`. -/
theorem rangesEntry_eq_readCells (a p s : UInt32) (value : Bytes) (entryBytes pos : ℕ) :
    rangesEntry a p s value entryBytes pos = do
      let childBase ← readCells (← slice value pos (pos + a.toNat * 4)) a
      let parentBase ← readCells
        (← slice value (pos + a.toNat * 4) (pos + (a + p).toNat * 4)) p
      let size ← readCells (← slice value (pos + (a + p).toNat * 4) (pos + entryBytes)) s
      return ⟨childBase, parentBase, size⟩ := by
  have hparent : ∀ cut, slice value (pos + a.toNat * 4) (pos + (a + p).toNat * 4) = .ok cut →
      readCellsTrunc cut p = readCells cut p := by
    intro cut hcut
    obtain ⟨hle, hend, rfl⟩ := slice_eq_ok hcut
    have hlen : ((value.drop (pos + a.toNat * 4)).take
        (pos + (a + p).toNat * 4 - (pos + a.toNat * 4))).length = p.toNat * 4 := by
      -- the slice has an end after its start only if the sum of the cell counts does not wrap
      have hsum := UInt32.toNat_add a p
      have ha := a.toNat_lt
      have hp := p.toNat_lt
      rw [List.length_take, List.length_drop]
      omega
    rw [readCellsTrunc_eq hlen, readCells_eq hlen]
  unfold rangesEntry
  rw [← bind_assoc, slice_readAddrCells, bind_assoc]
  refine bind_congr fun child => bind_congr fun childBase => ?_
  cases hcut : slice value (pos + a.toNat * 4) (pos + (a + p).toNat * 4) with
  | error e => rfl
  | ok cut => rw [Exec.ok_bind, Exec.ok_bind, hparent cut hcut]

/-- The three readers of cells agree, and the two walkers decode addresses alike: any number of cells
is read as the big-endian number of its bytes modulo `2^64`, the first entry of a `reg` by
`find_reg_by_path` as by `parse`, and the addresses of a `ranges` with the reader of `parse`. -/
theorem readers_agree :
    (∀ (cells : UInt32) (buf : Bytes), buf.length = 4 * cells.toNat →
      ∃ v : UInt64, v.toNat = Nat.ofDigits 256 (buf.reverse.map UInt8.toNat) % 2^64 ∧
        readCells buf cells = .ok v ∧ readCellsTrunc buf cells = .ok v ∧
        readAddrCells buf cells = .ok v) ∧
    (∀ (ctx : NodeContext) (node : RegNode) (value : Bytes) (entryBytes : ℕ),
      node.addrCells = ctx.addrCells → node.sizeCells = ctx.sizeCells →
      entryBytes = (ctx.addrCells + ctx.sizeCells).toNat * 4 →
      firstReg node value = if entryBytes = 0 ∨ value.length < entryBytes then .ok none
        else some <$> regEntry ctx value entryBytes 0) ∧
    ∀ (a p s : UInt32) (value : Bytes) (entryBytes pos : ℕ),
      rangesEntry a p s value entryBytes pos = do
        let childBase ← readCells (← slice value pos (pos + a.toNat * 4)) a
        let parentBase ← readCells
          (← slice value (pos + a.toNat * 4) (pos + (a + p).toNat * 4)) p
        let size ← readCells (← slice value (pos + (a + p).toNat * 4) (pos + entryBytes)) s
        return ⟨childBase, parentBase, size⟩ := by
  refine ⟨?_, ?_, rangesEntry_eq_readCells⟩
  · intro cells buf hlen
    have h : buf.length = cells.toNat * 4 := by omega
    refine ⟨word64 buf, ?_, readCells_eq h, readCellsTrunc_eq h, readAddrCells_eq h⟩
    rw [word64, UInt64.toNat_ofNat', number_eq_ofDigits]
  · intro ctx node value entryBytes haddr hsize hbytes
    exact firstReg_eq_regEntry haddr hsize hbytes value

/-- Three cells with a one in each are read as `2^32 + 1` by all readers, and both walkers read the
first entry of an empty `reg` alike. -/
theorem readers_agree_threeCells :
    (∃ v : UInt64, v.toNat = 2^32 + 1 ∧ readCells [0, 0, 0, 1, 0, 0, 0, 1, 0, 0, 0, 1] 3 = .ok v ∧
      readCellsTrunc [0, 0, 0, 1, 0, 0, 0, 1, 0, 0, 0, 1] 3 = .ok v ∧
      readAddrCells [0, 0, 0, 1, 0, 0, 0, 1, 0, 0, 0, 1] 3 = .ok v) ∧
    firstReg RegNode.root [] = .ok none := by
  constructor
  · obtain ⟨v, hv, hrest⟩ := readers_agree.1 3 [0, 0, 0, 1, 0, 0, 0, 1, 0, 0, 0, 1] rfl
    refine ⟨v, ?_, hrest⟩
    rw [hv]
    decide
  · exact readers_agree.2.1 NodeContext.root RegNode.root [] 16 rfl rfl rfl

/-! ## Translation -/

/-- What a range translates to what, where no sum overflows. -/
theorem Range.map_iff {r : Range} {addr phys : UInt64}
    (hend : r.childBase.toNat + r.size.toNat < 2^64)
    (hphys : r.parentBase.toNat + (addr.toNat - r.childBase.toNat) < 2^64) :
    r.map addr = some phys ↔
      r.childBase.toNat ≤ addr.toNat ∧ addr.toNat < r.childBase.toNat + r.size.toNat ∧
        phys.toNat = r.parentBase.toNat + (addr.toNat - r.childBase.toNat) := by
  have haddr := addr.toNat_lt
  have hsum : (r.childBase + r.size).toNat = r.childBase.toNat + r.size.toNat := by
    rw [UInt64.toNat_add]
    exact Nat.mod_eq_of_lt hend
  have hin : (addr ≥ r.childBase ∧ addr < r.childBase + r.size) ↔
      r.childBase.toNat ≤ addr.toNat ∧ addr.toNat < r.childBase.toNat + r.size.toNat := by
    rw [ge_iff_le, UInt64.le_iff_toNat_le, UInt64.lt_iff_toNat_lt, hsum]
  rw [Range.map, saturatingAdd, if_pos hend]
  by_cases h : addr ≥ r.childBase ∧ addr < r.childBase + r.size
  · have hvalue : (r.parentBase + (addr - r.childBase)).toNat =
        r.parentBase.toNat + (addr.toNat - r.childBase.toNat) := by
      rw [UInt64.toNat_add, UInt64.toNat_sub_of_le _ _ h.1]
      exact Nat.mod_eq_of_lt hphys
    obtain ⟨hge, hlt⟩ := hin.mp h
    rw [if_pos h, Option.some.injEq, ← UInt64.toNat_inj, hvalue]
    exact ⟨fun heq => ⟨hge, hlt, heq.symm⟩, fun heq => heq.2.2.symm⟩
  · rw [if_neg h]
    exact ⟨fun heq => (nomatch heq), fun heq => absurd (hin.mpr ⟨heq.1, heq.2.1⟩) h⟩

/-- The loop over ranges finds the first one that translates the address. -/
theorem mapLoop_eq {ranges : List Range} (cur : UInt64) {n i : ℕ} (h : i + n ≤ ranges.length) :
    mapLoop ranges cur n i = .ok (((ranges.drop i).take n).findSome? fun r => r.map cur) := by
  induction n generalizing i with
  | zero => rfl
  | succ n ih =>
    rw [mapLoop, index_ok (by omega), Exec.ok_bind, List.drop_eq_getElem_cons (by omega),
      List.take_succ_cons, List.findSome?_cons]
    cases ranges[i].map cur with
    | some mapped => rfl
    | none => exact ih (by omega)

/-- The translation goes through the ranges of the nodes below an index, from the last one on. -/
theorem translateLoop_eq {stack : List RegNode} (hnodes : ∀ node ∈ stack, node.Inv)
    {frames : List UartNode} {n : ℕ} (hn : n ≤ stack.length)
    (h : (stack.take n).map RegNode.abs = frames) (cur : UInt64) :
    translateLoop stack n cur = .ok (throughAll (frames.reverse.map UartNode.ranges) cur) := by
  induction n generalizing frames cur with
  | zero =>
    cases h
    rfl
  | succ n ih =>
    have hnode := hnodes _ (List.getElem_mem (n := n) (by omega))
    have hlen := hnode.length
    have hle := hnode.len_le
    rw [List.take_succ_eq_append_getElem (by omega), List.map_append] at h
    subst h
    rw [List.reverse_append, translateLoop, index_ok (by omega), Exec.ok_bind]
    show _ = Except.ok (throughRanges (stack[n].ranges.take stack[n].rangesLen) cur >>= throughAll _)
    -- a node without ranges passes the address on as it is
    by_cases hpos : stack[n].rangesLen > 0
    · have hne : stack[n].ranges.take stack[n].rangesLen ≠ [] := by
        intro heq
        have hlength := congrArg List.length heq
        rw [List.length_take, List.length_nil] at hlength
        omega
      rw [if_pos hpos, mapLoop_eq cur (by omega), Exec.ok_bind, List.drop_zero, throughRanges,
        if_neg hne]
      cases (stack[n].ranges.take stack[n].rangesLen).findSome? fun r => r.map cur with
      | none => rfl
      | some next => exact ih (by omega) rfl next
    · have hnil : stack[n].ranges.take stack[n].rangesLen = [] := by
        rw [show stack[n].rangesLen = 0 by omega, List.take_zero]
      rw [if_neg hpos, throughRanges, if_pos hnil]
      exact ih (by omega) rfl cur

/-! ## The fold -/

/-- The ranges of the nodes around, from the inside out. -/
def outerOf (frames : List UartNode) : List (List Range) := frames.reverse.map UartNode.ranges

/-- The address cells of the innermost node around. -/
def cellsOf (frames : List UartNode) : UInt32 :=
  match frames.reverse with
  | [] => 0
  | frame :: _ => frame.addrCells

/-- A node is open, with a path, inside nodes that are given from the root on. The lengths of the
paths around are saved. -/
structure RegWalk.Open (s : RegWalk) (path : Bytes) (frames : List UartNode) (node : UartNode)
    (lens : List ℕ) : Prop where
  inv : s.Inv
  depth : s.depth = frames.length + 1
  nodes : (s.stack.take s.depth).map RegNode.abs = frames ++ [node]
  path : s.path.Holds path
  lens : s.pathLenStack.take s.depth = lens

section Fold

variable {s : RegWalk} {path : Bytes} {frames : List UartNode} {node : UartNode} {lens : List ℕ}

/-- The open node is in the array, after those around it. -/
theorem RegWalk.Open.top (h : s.Open path frames node lens) :
    ∃ n, index s.stack (s.depth - 1) = .ok n ∧ n.Inv ∧ n.abs = node ∧
      (s.stack.take frames.length).map RegNode.abs = frames := by
  have hdepth := h.depth
  have hle := h.inv.depth_le
  have hlen := h.inv.length
  have hlt : frames.length < s.stack.length := by omega
  have hnodes := h.nodes
  rw [hdepth, List.take_succ_eq_append_getElem hlt, List.map_append] at hnodes
  have hframes := List.append_inj hnodes (by rw [List.length_map, List.length_take]; omega)
  refine ⟨s.stack[frames.length], ?_, h.inv.nodes _ (List.getElem_mem hlt), ?_, hframes.1⟩
  · rw [hdepth, Nat.add_sub_cancel, index_ok hlt]
  · exact List.head_eq_of_cons_eq hframes.2

/-- The address cells of the node around the open one. -/
theorem RegWalk.Open.parentAddrCells_eq (h : s.Open path frames node lens) :
    parentAddrCells s = .ok (cellsOf frames) := by
  have hdepth := h.depth
  have hle := h.inv.depth_le
  have hlen := h.inv.length
  obtain ⟨n, -, -, -, hframes⟩ := h.top
  unfold parentAddrCells cellsOf
  rcases List.eq_nil_or_concat frames with rfl | ⟨around, frame, rfl⟩
  · rw [if_neg (by rw [hdepth]; decide)]
    rfl
  · rw [List.concat_eq_append] at hdepth hframes ⊢
    rw [List.length_append, List.length_singleton] at hdepth
    have hlt : around.length < s.stack.length := by omega
    rw [List.length_append, List.length_singleton, List.take_succ_eq_append_getElem hlt,
      List.map_append] at hframes
    have hframe := List.append_inj hframes (by rw [List.length_map, List.length_take]; omega)
    have habs : s.stack[around.length].abs = frame := List.head_eq_of_cons_eq hframe.2
    rw [if_pos (by omega), show s.depth - 2 = around.length by omega, index_ok hlt, Exec.ok_bind,
      List.reverse_append, ← habs]
    rfl

/-- `is_rp1_path` decides whether the path is one of the RP1. -/
theorem isRp1Path_eq {buf : SmallBuf} (h : buf.Holds path) :
    isRp1Path buf = .ok (decide (rp1Prefix <+: path)) := by
  have hlen := h.inv.length
  have hle := h.inv.len_le
  have hs := h.len_eq
  have htake : buf.buf.take rp1Prefix.length = path.take rp1Prefix.length ∨
      buf.len < rp1Prefix.length := by
    by_cases hlt : buf.len < rp1Prefix.length
    · exact .inr hlt
    · left
      rw [← h.take, List.take_take, Nat.min_eq_left (by omega)]
  unfold isRp1Path
  by_cases hlt : buf.len ≥ rp1Prefix.length
  · rw [if_pos hlt, slice_ok (Nat.zero_le _) (by omega), Exec.ok_bind, List.drop_zero, Nat.sub_zero,
      htake.resolve_right (by omega), Exec.pure_eq]
    refine congrArg _ (Bool.eq_iff_iff.mpr ?_)
    rw [beq_iff_eq, decide_eq_true_iff, List.prefix_iff_eq_take]
    exact eq_comm
  · rw [if_neg hlt, decide_eq_false]
    intro hprefix
    have hlength := hprefix.length_le
    omega

/-- The address for the CPU, of an address in the open node. -/
theorem regPhys_eq (h : s.Open path frames node lens) {p : UartProp} (hpath : p.path = path)
    (houter : p.outer = outerOf frames) (addr : UInt64) : regPhys s addr = .ok (p.phys addr) := by
  have hdepth := h.depth
  have hle := h.inv.depth_le
  have hlen := h.inv.length
  obtain ⟨n, -, -, -, hframes⟩ := h.top
  have htranslate : translateAddr addr s.depth s.stack = .ok (throughAll p.outer addr) := by
    rw [translateAddr, if_neg (by omega), hdepth, Nat.add_sub_cancel,
      translateLoop_eq h.inv.nodes (by omega) hframes, houter, outerOf]
  rw [regPhys, htranslate, Exec.ok_bind, isRp1Path_eq h.path, Exec.ok_bind, UartProp.phys, hpath]
  by_cases hrp1 : rp1Prefix <+: path
  · simp only [hrp1, decide_true, and_true, true_and, if_true]
    cases throughAll p.outer addr with
    | none =>
      simp only [if_true, Option.map_some, ite_self]
      rfl
    | some phys =>
      simp only [reduceCtorEq, if_false, Option.map_some]
      split
      · rfl
      · rfl
  · simp only [hrp1, decide_false, Bool.false_eq_true, and_false, false_and, if_false]
    cases throughAll p.outer addr with
    | none => rfl
    | some phys => rfl

/-- A child of the open node is entered. -/
theorem regBegin_open (h : s.Open path frames node lens) (hlt : s.depth < 32)
    {name : Bytes} (hroom : (path ++ 0x2f :: name).length ≤ 256) :
    ∃ s', regBegin name s = .ok s' ∧ s'.depth = s.depth + 1 ∧
      s'.Open (path ++ 0x2f :: name) (frames ++ [node]) node.enter (lens ++ [path.length]) := by
  have hdepth := h.depth
  have hlen := h.inv.length
  have hlenLength := h.inv.lenLength
  obtain ⟨n, hn, hnInv, habs, -⟩ := h.top
  obtain ⟨buf, hbuf, hholds⟩ := SmallBuf.enter_holds h.path hroom
  have hlens : pathLenPush s = .ok (s.pathLenStack.set s.depth s.path.len) := by
    rw [pathLenPush, if_pos (by omega), setIndex_ok (by omega)]
  have hpath : pathEnter s name = .ok buf := by
    rw [pathEnter, if_neg (by omega), hbuf]
  have hparent : regParentOf s.stack s.depth = .ok n := by
    rw [regParentOf, if_neg (by omega), hn]
  have hbegin : regBegin name s = .ok { s with
      pathLenStack := s.pathLenStack.set s.depth s.path.len
      path := buf
      stack := s.stack.set s.depth { n with rangesLen := 0 }
      depth := s.depth + 1 } := by
    rw [regBegin, hlens, Exec.ok_bind, hpath, Exec.ok_bind, hparent, Exec.ok_bind, if_pos (by omega),
      setIndex_ok (by omega)]
    rfl
  refine ⟨_, hbegin, rfl, regBegin_inv h.inv hbegin, ?_, ?_, hholds, ?_⟩
  · show s.depth + 1 = _
    rw [hdepth, List.length_append, List.length_singleton]
  · show ((s.stack.set s.depth _).take (s.depth + 1)).map RegNode.abs = _
    rw [take_set_succ (by omega), List.map_append, h.nodes, ← habs]
    rfl
  · show (s.pathLenStack.set s.depth s.path.len).take (s.depth + 1) = _
    rw [take_set_succ (by omega), h.lens, h.path.len_eq]

/-- The root is entered. -/
theorem regBegin_root (root : Bytes) (hroom : (rootPath root).length ≤ 256) :
    ∃ s', regBegin root RegWalk.start = .ok s' ∧ s'.depth = 1 ∧
      s'.Open (rootPath root) [] UartNode.root [0] := by
  obtain ⟨buf, hbuf, hholds⟩ : ∃ buf, pathEnter RegWalk.start root = .ok buf ∧
      buf.Holds (rootPath root) := by
    unfold pathEnter rootPath
    by_cases hroot : root = []
    · rw [if_pos hroot, if_pos ⟨rfl, hroot⟩]
      exact ⟨_, rfl, SmallBuf.holds_new⟩
    · rw [rootPath, if_neg hroot] at hroom
      rw [if_neg hroot, if_neg fun h => hroot h.2]
      exact SmallBuf.enter_holds SmallBuf.holds_new hroom
  have hlens : pathLenPush RegWalk.start = .ok (RegWalk.start.pathLenStack.set 0 0) := rfl
  have hparent : regParentOf RegWalk.start.stack RegWalk.start.depth = .ok RegNode.root := rfl
  have hbegin : regBegin root RegWalk.start = .ok { RegWalk.start with
      pathLenStack := RegWalk.start.pathLenStack.set 0 0
      path := buf
      stack := RegWalk.start.stack.set 0 { RegNode.root with rangesLen := 0 }
      depth := 1 } := by
    rw [regBegin, hlens, Exec.ok_bind, hbuf, Exec.ok_bind, hparent, Exec.ok_bind,
      if_pos (by decide), setIndex_ok (by decide)]
    rfl
  exact ⟨_, hbegin, rfl, regBegin_inv RegWalk.inv_start hbegin, rfl, rfl, hholds, rfl⟩

/-- A child of the open node is left. -/
theorem regEnd_open {name : Bytes} {child : UartNode}
    (h : s.Open (path ++ name) (frames ++ [node]) child (lens ++ [path.length]))
    (hlens : lens.length = frames.length + 1) :
    ∃ s', regEnd s = .ok s' ∧ s'.depth + 1 = s.depth ∧ s'.Open path frames node lens := by
  have hdepth := h.depth
  rw [List.length_append, List.length_singleton] at hdepth
  have hle := h.inv.depth_le
  have hlen := h.inv.lenLength
  have hlt : lens.length < s.pathLenStack.length := by omega
  have htake := h.lens
  rw [show s.depth = lens.length + 1 by omega, List.take_succ_eq_append_getElem hlt] at htake
  have hparts := List.append_inj htake (by rw [List.length_take]; omega)
  have hsaved : index s.pathLenStack (s.depth - 1) = .ok path.length := by
    rw [show s.depth - 1 = lens.length by omega, index_ok hlt, List.head_eq_of_cons_eq hparts.2]
  have hend : regEnd s = .ok { s with
      depth := s.depth - 1, path := { s.path with len := path.length } } := by
    rw [regEnd, if_pos (by omega), hsaved]
    rfl
  have hinv' := regEnd_inv h.inv hend
  -- The buffer still begins with the path around: only its length goes back.
  obtain ⟨n, -, -, -, hnodes⟩ := h.top
  have hpath := h.path.len_eq
  rw [List.length_append] at hpath
  refine ⟨_, hend, by dsimp only; omega, hinv', by dsimp only; omega, ?_, ⟨hinv'.path, ?_⟩, ?_⟩
  · show (s.stack.take (s.depth - 1)).map RegNode.abs = _
    rwa [show s.depth - 1 = (frames ++ [node]).length by
      rw [List.length_append, List.length_singleton]; omega]
  · show s.path.buf.take path.length = path
    have hbuf := congrArg (List.take path.length) h.path.take
    rwa [List.take_take, Nat.min_eq_left (by omega), List.take_left] at hbuf
  · show s.pathLenStack.take (s.depth - 1) = lens
    rw [show s.depth - 1 = lens.length by omega, hparts.1]

/-- The open node takes a property of its own. -/
theorem RegWalk.Open.prop (h : s.Open path frames node lens) {name value : Bytes} {n n' : RegNode}
    (hn : index s.stack (s.depth - 1) = .ok n)
    (hprop : n.prop (cellsOf frames) name value = .ok n') :
    RegWalk.Open { s with stack := s.stack.set (s.depth - 1) n' } path frames n'.abs lens := by
  have hdepth := h.depth
  have hle := h.inv.depth_le
  have hlen := h.inv.length
  obtain ⟨m, hm, hmInv, -, hframes⟩ := h.top
  obtain rfl := Except.ok.inj (hm.symm.trans hn)
  have hinv : RegWalk.Inv { s with stack := s.stack.set (s.depth - 1) n' } := by
    refine ⟨hle, List.length_set.trans hlen, fun k hk => ?_, h.inv.path, h.inv.lenLength, h.inv.lens⟩
    rcases List.mem_or_eq_of_mem_set hk with hmem | rfl
    · exact h.inv.nodes k hmem
    · exact RegNode.prop_inv hmInv hprop
  refine ⟨hinv, hdepth, ?_, h.path, h.lens⟩
  show ((s.stack.set (s.depth - 1) n').take s.depth).map RegNode.abs = _
  rw [hdepth, Nat.add_sub_cancel, take_set_succ (by omega), List.map_append, hframes]
  rfl

/-- The property of the tree that the walk comes to in an open node. -/
def propOf (path : Bytes) (frames : List UartNode) (node : UartNode) (name value : Bytes) : UartProp :=
  ⟨path, outerOf frames, cellsOf frames, node, name, value⟩

/-- What the walk is promised of a property: the cell counts do not overflow, and a `ranges` has four
entries at most. -/
structure UartProp.Supported (p : UartProp) : Prop extends p.NoOverflow where
  four : p.name = ascii "ranges" → (p.node.rangeEntries p.parentCells p.value).length ≤ 4

instance (p : UartProp) : Decidable p.Supported :=
  decidable_of_iff
    ((p.name = ascii "reg" → p.node.addrCells.toNat + p.node.sizeCells.toNat < 2^32) ∧
      (p.name = ascii "ranges" →
        p.node.addrCells.toNat + p.parentCells.toNat + p.node.sizeCells.toNat < 2^32) ∧
      (p.name = ascii "ranges" → (p.node.rangeEntries p.parentCells p.value).length ≤ 4))
    ⟨fun h => ⟨⟨h.1, h.2.1⟩, h.2.2⟩, fun h => ⟨h.reg, h.ranges, h.four⟩⟩

/-- The walk at a property of an open node: the node takes it, and if the path is the target's, more is
done with it. -/
theorem RegWalk.Open.regProp_eq (h : s.Open path frames node lens) {name value : Bytes}
    (hno : (propOf path frames node name value).NoOverflow) (target : Bytes) :
    ∃ n t, n.abs = node ∧ t.Open path frames (node.update (cellsOf frames) name value).cut lens ∧
      t.settings = s.settings ∧ regProp target name value s =
        if path = target then regTarget t n name value else .ok (.next t) := by
  have hdepth := h.depth
  have hle := h.inv.depth_le
  have hlen := h.inv.length
  obtain ⟨n, hn, hnInv, rfl, -⟩ := h.top
  obtain ⟨n', hn', habs⟩ : ∃ n', n.prop (cellsOf frames) name value = .ok n' ∧
      n'.abs = (n.abs.update (cellsOf frames) name value).cut :=
    RegNode.prop_eq hnInv hno.ranges
  have hopen := h.prop hn hn'
  rw [habs] at hopen
  refine ⟨n, { s with stack := s.stack.set (s.depth - 1) n' }, rfl, hopen, rfl, ?_⟩
  rw [regProp, if_neg (by omega), hn, Exec.ok_bind, h.parentAddrCells_eq, Exec.ok_bind, hn',
    Exec.ok_bind, setIndex_ok (by omega), Exec.ok_bind, pathMatches_eq h.path.inv, h.path.take,
    Exec.ok_bind]
  by_cases hpath : path = target
  · rw [if_pos (beq_iff_eq.mpr hpath), if_pos hpath]
  · rw [if_neg (by rw [beq_iff_eq]; exact hpath), if_neg hpath]
    rfl

/-- The walk at a property that it does not look for. -/
theorem regProp_miss (h : s.Open path frames node lens) {target name value : Bytes}
    (hno : (propOf path frames node name value).NoOverflow)
    (hmiss : ¬(propOf path frames node name value).Hit target) :
    ∃ s', regProp target name value s = .ok (.next s') ∧ s'.depth = s.depth ∧
      s'.Open path frames (node.update (cellsOf frames) name value).cut lens ∧
      s'.settings = s.settings.see target (propOf path frames node name value) := by
  obtain ⟨n, t, rfl, hopen, hsettings, hprop⟩ := h.regProp_eq hno target
  have hdepth : t.depth = s.depth := hopen.depth.trans h.depth.symm
  rw [hprop, ← hsettings]
  by_cases hpath : path = target
  · rw [if_pos hpath]
    -- The path is the target's: the property is no `reg`, or has no entry.
    have hnext : ∃ s', regTarget t n name value = .ok (.next s') := by
      by_cases hreg : name = ascii "reg"
      · have hfirst := firstReg_eq (propOf path frames n.abs name value) rfl hreg
          (hno.reg hreg)
        have hnone : (propOf path frames n.abs name value).first? = none := by
          rw [← Option.not_isSome_iff_eq_none]
          exact fun hsome => hmiss ⟨hpath, hsome⟩
        rw [hnone] at hfirst
        subst hreg
        rw [regTarget, if_neg (by decide), if_neg (by decide), if_neg (by decide),
          if_neg (by decide), if_pos rfl, regFound]
        change firstReg n value = _ at hfirst
        rw [hfirst]
        exact ⟨_, rfl⟩
      · exact regTarget_next _ n hreg value
    obtain ⟨s', hs'⟩ := hnext
    obtain ⟨hd, hstack, hp, hl⟩ := regTarget_frame hs'
    refine ⟨s', hs', hd.trans hdepth, ⟨regTarget_inv hopen.inv hs', hd.trans hopen.depth, ?_, ?_, ?_⟩, ?_⟩
    · rw [hd, hstack]
      exact hopen.nodes
    · rw [hp]
      exact hopen.path
    · rw [hd, hl]
      exact hopen.lens
    · exact (regTarget_settings hs').trans (if_pos hpath).symm
  · rw [if_neg hpath]
    exact ⟨t, rfl, hdepth, hopen, (if_neg hpath).symm⟩

/-- The walk at the property that it looks for. -/
theorem regProp_hit (h : s.Open path frames node lens) {target name value : Bytes}
    (hno : (propOf path frames node name value).NoOverflow)
    (hhit : (propOf path frames node name value).Hit target) :
    ∃ r, regProp target name value s = .ok (.done r) ∧
      r.map (fun info => (info.addr, info.size)) = (propOf path frames node name value).result ∧
      ∀ info, r = some info → info.settings = s.settings := by
  obtain ⟨n, t, rfl, hopen, hsettings, hprop⟩ := h.regProp_eq hno target
  obtain ⟨hpath, hsome⟩ := hhit
  have hpath' : path = target := hpath
  have hreg : name = ascii "reg" := by
    by_contra hne
    rw [UartProp.first?, if_neg (fun h => hne h.1)] at hsome
    cases hsome
  obtain ⟨entry, hentry⟩ := Option.isSome_iff_exists.mp hsome
  have hfirst : firstReg n value = .ok (some entry) := by
    rw [← hentry]
    exact firstReg_eq (propOf path frames n.abs name value) rfl hreg (hno.reg hreg)
  have hphys := regPhys_eq hopen (p := propOf path frames n.abs name value) rfl rfl entry.1
  rw [hprop, if_pos hpath', UartProp.result, hentry]
  subst hreg
  rw [regTarget, if_neg (by decide), if_neg (by decide), if_neg (by decide), if_neg (by decide),
    if_pos rfl, regFound, hfirst, Exec.ok_bind]
  dsimp only
  rw [hphys, Exec.ok_bind]
  cases hout : (propOf path frames n.abs (ascii "reg") value).phys entry.1 with
  | none =>
    refine ⟨none, rfl, ?_, fun info hinfo => by cases hinfo⟩
    show none = (UartProp.phys _ entry.1 >>= _)
    rw [hout]
    rfl
  | some phys =>
    refine ⟨_, rfl, ?_, fun info hinfo => ?_⟩
    · show some _ = (UartProp.phys _ entry.1 >>= _)
      rw [hout]
      rfl
    · cases hinfo
      exact hsettings

/-- What is left of a node without properties leaves the node as it is. -/
theorem Items.NoProps.own_eq {items : Items} (h : items.NoProps) (p : UInt32) (node : UartNode) :
    items.own p node = node := by
  induction items with
  | nil => rfl
  | prop name value rest _ => exact absurd h id
  | node name items rest _ ih => exact ih h

/-- What comes of a part of the walk: it goes on in a state that is like one before, or it has found
the property and leaves with its address and size. -/
def Outcome (x : Exec (Iter RegWalk (Option UartInfo))) (found : Option UartProp)
    (P : RegWalk → Prop) : Prop :=
  match found with
  | none => ∃ s, x = .ok (.next s) ∧ P s
  | some p => ∃ r, x = .ok (.done r) ∧ r.map (fun info => (info.addr, info.size)) = p.result

/-- The address cells of the node around are kept. -/
theorem cellsOf_cut (frames : List UartNode) : cellsOf (frames.map UartNode.cut) = cellsOf frames := by
  unfold cellsOf
  rw [← List.map_reverse]
  cases frames.reverse with
  | nil => rfl
  | cons frame rest => rfl

/-- The property in nodes of which the first four ranges are kept. -/
theorem propOf_cut (path : Bytes) (frames : List UartNode) (node : UartNode) (name value : Bytes) :
    propOf path (frames.map UartNode.cut) node.cut name value =
      (propOf path frames node name value).cut := by
  have houter : outerOf (frames.map UartNode.cut) = (outerOf frames).map (List.take 4) := by
    rw [outerOf, outerOf, ← List.map_reverse, List.map_map, List.map_map]
    rfl
  rw [propOf, cellsOf_cut, houter]
  rfl

/-- Overflow does not depend on the ranges. -/
theorem UartProp.NoOverflow.cut {p : UartProp} (h : p.NoOverflow) : p.cut.NoOverflow := ⟨h.reg, h.ranges⟩

/-- The ranges around a child of the node: first the node's own. -/
theorem outerOf_concat (frames : List UartNode) (node : UartNode) :
    outerOf (frames ++ [node]) = node.ranges :: outerOf frames := by
  rw [outerOf, List.reverse_append]
  rfl

/-- The address cells around a child of the node are the node's. -/
theorem cellsOf_concat (frames : List UartNode) (node : UartNode) :
    cellsOf (frames ++ [node]) = node.addrCells := by
  rw [cellsOf, List.reverse_append]
  rfl

/-- The settings that a part of the walk leaves or goes on with. -/
def Settles (x : Exec (Iter RegWalk (Option UartInfo))) (u : UartSettings) : Prop :=
  (∀ s, x = .ok (.next s) → s.settings = u) ∧ ∀ info, x = .ok (.done (some info)) → info.settings = u

/-- The settings of what the walk leaves with. -/
theorem settles_done {r : Option UartInfo} {u : UartSettings}
    (h : ∀ info, r = some info → info.settings = u) : Settles (.ok (.done r)) u := by
  constructor
  · intro s hs
    cases hs
  · intro info hinfo
    cases hinfo
    exact h info rfl

/-- The walk at the property that it looks for, where four ranges of each node are kept. -/
theorem regProp_cut_hit (hopen : s.Open path (frames.map UartNode.cut) node.cut lens)
    {target name value : Bytes} (hno : (propOf path frames node name value).NoOverflow)
    (hhit : (propOf path frames node name value).Hit target) :
    ∃ r, regProp target name value s = .ok (.done r) ∧
      r.map (fun info => (info.addr, info.size)) = (propOf path frames node name value).cut.result ∧
      ∀ info, r = some info → info.settings = s.settings := by
  have hcut := propOf_cut path frames node name value
  have hnoCut := hcut ▸ hno.cut
  obtain ⟨r, hr, hresult, hsettings⟩ := regProp_hit hopen hnoCut hhit
  rw [hcut] at hresult
  exact ⟨r, hr, hresult, hsettings⟩

/-- The walk at a property that it does not look for, where four ranges of each node are kept. -/
theorem regProp_cut_miss (hopen : s.Open path (frames.map UartNode.cut) node.cut lens)
    {target name value : Bytes} (hno : (propOf path frames node name value).NoOverflow)
    (hmiss : ¬(propOf path frames node name value).Hit target) :
    ∃ s', regProp target name value s = .ok (.next s') ∧ s'.depth = s.depth ∧
      s'.Open path (frames.map UartNode.cut) (node.update (cellsOf frames) name value).cut lens ∧
      s'.settings = s.settings.see target (propOf path frames node name value) := by
  have hcut := propOf_cut path frames node name value
  have hnoCut := hcut ▸ hno.cut
  obtain ⟨s', hs', hdepth, hopen', hsettings⟩ := regProp_miss hopen hnoCut hmiss
  rw [cellsOf_cut, UartNode.cut_update] at hopen'
  exact ⟨s', hs', hdepth, hopen', hsettings⟩

/-- A node that begins keeps the settings. -/
theorem regBegin_settings {s s' : RegWalk} {name : Bytes} (h : regBegin name s = .ok s') :
    s'.settings = s.settings := by
  obtain ⟨lens, path, parent, -, -, -, ⟨-, rfl⟩ | ⟨-, rfl⟩⟩ := regBegin_cases h
  · rfl
  · rfl

/-- So does a node that ends. -/
theorem regEnd_settings {s s' : RegWalk} (h : regEnd s = .ok s') : s'.settings = s.settings := by
  obtain ⟨len, -, -, rfl⟩ | ⟨-, rfl⟩ := regEnd_cases h
  · rfl
  · rfl

/-- The properties and children of an open node: the walk leaves at the first property that it looks
for, and else the node is open, after all its properties. Of each node, the first four ranges are
kept. The settings are those that the properties before have given. -/
theorem fold_reg (target : Bytes) (items : Items) {own : UartNode}
    (hopen : s.Open path (frames.map UartNode.cut) node.cut lens)
    (hdepth : s.depth + items.height ≤ 32) (hordered : items.Ordered)
    (hown : items.own (cellsOf frames) node = own) (hlens : lens.length = frames.length + 1)
    (hpaths : ∀ q ∈ items.paths path, q.length ≤ 256)
    (hno : ∀ p ∈ items.uartProps path (outerOf frames) (cellsOf frames) own node, p.NoOverflow) :
    Outcome ((regVisitor target).fold items s)
        (((items.uartProps path (outerOf frames) (cellsOf frames) own node).find?
          fun p => p.Hit target).map UartProp.cut)
        (fun s' => s'.depth = s.depth ∧ s'.Open path (frames.map UartNode.cut) own.cut lens) ∧
      Settles ((regVisitor target).fold items s)
        (settingsAt target (items.uartProps path (outerOf frames) (cellsOf frames) own node)
          s.settings) := by
  induction items generalizing s path frames node own lens with
  | nil =>
    cases hown
    refine ⟨⟨s, rfl, rfl, hopen⟩, fun s' hs' => ?_, fun info hinfo => by cases hinfo⟩
    cases hs'
    rfl
  | prop name value rest ih =>
    rw [Items.uartProps, List.forall_mem_cons] at hno
    have hprops : (Items.prop name value rest).uartProps path (outerOf frames) (cellsOf frames) own
        node = propOf path frames node name value :: rest.uartProps path (outerOf frames)
          (cellsOf frames) own (node.update (cellsOf frames) name value) := rfl
    rw [hprops, Visitor.fold, List.find?_cons, settingsAt,
      show (regVisitor target).prop name value s = regProp target name value s from rfl]
    by_cases hhit : (propOf path frames node name value).Hit target
    · obtain ⟨r, hr, hresult, hsettings⟩ := regProp_cut_hit hopen hno.1 hhit
      rw [decide_eq_true hhit, if_pos hhit, hr]
      exact ⟨⟨r, rfl, hresult⟩, settles_done hsettings⟩
    · obtain ⟨s', hs', hd, hopen', hsettings⟩ := regProp_cut_miss hopen hno.1 hhit
      have hrest := ih hopen' (by rw [hd]; exact hdepth) hordered hown hlens hpaths hno.2
      rw [decide_eq_false hhit, if_neg hhit, hs']
      rw [hd, hsettings] at hrest
      exact hrest
  | node name items rest ih ih' =>
    obtain ⟨hitems, hnoprops, hrest⟩ := hordered
    have hnode : node = own := (hnoprops.own_eq _ _).symm.trans hown
    subst hnode
    rw [Items.height] at hdepth
    rw [Items.paths, List.forall_mem_cons, List.forall_mem_append] at hpaths
    rw [Items.uartProps, List.forall_mem_append] at hno
    rw [Items.uartProps, Visitor.fold, List.find?_append]
    -- all properties of the node are before the child, so its children see the node as it ends up
    obtain ⟨s₁, hbegin, hd₁, hopen₁⟩ := regBegin_open hopen (by omega) hpaths.1
    have hframes : frames.map UartNode.cut ++ [node.cut] = (frames ++ [node]).map UartNode.cut := by
      rw [List.map_append]
      rfl
    have hsettings₁ := regBegin_settings hbegin
    have houter := outerOf_concat frames node
    have hcells := cellsOf_concat frames node
    have hown₁ : items.own (cellsOf (frames ++ [node])) node.enter =
        items.own node.addrCells node.enter := by rw [hcells]
    have hopen₁' : s₁.Open (path ++ 0x2f :: name) ((frames ++ [node]).map UartNode.cut) node.enter.cut
        (lens ++ [path.length]) := by
      rw [← hframes]
      exact hopen₁
    have hchild := ih hopen₁' (by omega) hitems hown₁
      (by rw [List.length_append, List.length_append, hlens]; rfl) hpaths.2.1
      (by rw [houter, hcells]; exact hno.1)
    rw [houter, hcells, hsettings₁] at hchild
    rw [show (regVisitor target).beginNode name s = regBegin name s from rfl, hbegin, Exec.ok_bind]
    cases hfound : (items.uartProps (path ++ 0x2f :: name) (node.ranges :: outerOf frames)
        node.addrCells (items.own node.addrCells node.enter) node.enter).find?
          fun p => p.Hit target with
    | some p =>
      rw [hfound] at hchild
      obtain ⟨⟨r, hr, hresult⟩, -, hsettings⟩ := hchild
      rw [settingsAt_append_of_hit hfound, hr]
      refine ⟨⟨r, rfl, hresult⟩, settles_done fun info hinfo => hsettings info ?_⟩
      rw [hr, hinfo]
    | none =>
      rw [hfound] at hchild
      obtain ⟨⟨s₂, hs₂, hd₂, hopen₂⟩, hsettings₂, -⟩ := hchild
      rw [← hframes] at hopen₂
      obtain ⟨s₃, hend, hd₃, hopen₃⟩ := regEnd_open hopen₂ (by rwa [List.length_map])
      have hafter := ih' hopen₃ (by omega) hrest hown hlens hpaths.2.2 hno.2
      have hend' : andThen ((regVisitor target).fold items s₁) (regVisitor target).endNode =
          .ok (.next s₃) := by
        rw [hs₂]
        show (regEnd s₂ >>= _) = _
        rw [hend]
        rfl
      rw [settingsAt_append_of_miss hfound, ← hsettings₂ s₂ hs₂, ← regEnd_settings hend, hend',
        show s.depth = s₃.depth by omega]
      exact hafter

/-- What a tree must be like for the walk to find what is in it: 32 levels at most, paths of 256 bytes
at most, properties before children, four ranges at most, and cell counts that do not overflow. -/
structure RegTree (root : Bytes) (items : Items) : Prop where
  levels : items.height + 1 ≤ 32
  rootPath_le : (rootPath root).length ≤ 256
  paths : ∀ path ∈ items.paths (rootPath root), path.length ≤ 256
  ordered : items.Ordered
  supported : ∀ p ∈ uartProps root items, p.Supported

/-- What a tree must be like for the walk to come to what is in it: 32 levels at most, paths of 256
bytes at most, properties before children, and cell counts that do not overflow. -/
structure RangesTree (root : Bytes) (items : Items) : Prop where
  levels : items.height + 1 ≤ 32
  rootPath_le : (rootPath root).length ≤ 256
  paths : ∀ path ∈ items.paths (rootPath root), path.length ≤ 256
  ordered : items.Ordered
  noOverflow : ∀ p ∈ uartProps root items, p.NoOverflow

/-- A tree that `find_reg_by_path` reads through and through is one that the walk comes through. -/
theorem RegTree.rangesTree {root : Bytes} {items : Items} (h : RegTree root items) :
    RangesTree root items where
  levels := h.levels
  rootPath_le := h.rootPath_le
  paths := h.paths
  ordered := h.ordered
  noOverflow := fun p hp => (h.supported p hp).toNoOverflow

/-- The UART with the target's path: its address and size, if only the first four ranges of a node
count, and the settings that come before its `reg`. -/
def infoOfFour (root : Bytes) (items : Items) (target : Bytes) : Option UartInfo :=
  (regOfFour root items target).map
    (settingsAt target (uartProps root items) UartSettings.start).info

/-- Its address and size are those that the tree gives. -/
theorem infoOfFour_place (root : Bytes) (items : Items) (target : Bytes) :
    (infoOfFour root items target).map (fun info => (info.addr, info.size)) =
      regOfFour root items target := by
  rw [infoOfFour, Option.map_map]
  exact congrFun Option.map_id _

/-- An address, a size and settings make up a UART. -/
theorem info_eq {r : Option UartInfo} {place : Option (UInt64 × UInt64)} {u : UartSettings}
    (hplace : r.map (fun info => (info.addr, info.size)) = place)
    (hsettings : ∀ info, r = some info → info.settings = u) : r = place.map u.info := by
  subst hplace
  cases r with
  | none => rfl
  | some info =>
    rw [← hsettings info rfl]
    rfl

/-- `find_reg_by_path` finds what is in the tree, through the first four ranges of each node. -/
theorem findReg_info {b : Blob} {root : Bytes} {items : Items} (h : Flattens b root items)
    (htree : RangesTree root items) (target : Bytes) :
    findRegIn b target = .ok (infoOfFour root items target) := by
  obtain ⟨s, hbegin, hdepth, hopen⟩ := regBegin_root root htree.rootPath_le
  have hlevels := htree.levels
  have hopen' : s.Open (rootPath root) (List.map UartNode.cut []) UartNode.root.cut [0] := hopen
  obtain ⟨hfold, -, hsettles⟩ := fold_reg target items hopen' (by omega) htree.ordered rfl rfl
    htree.paths htree.noOverflow
  have hwalk : findRegIn b target =
      andThen ((regVisitor target).fold items s) (regVisitor target).endNode >>=
        Loop.after fun _ => .ok none := by
    rw [findRegIn, walk_flattens h, Visitor.fold]
    show (regBegin root RegWalk.start >>= _) >>= _ = _
    rw [hbegin, Exec.ok_bind, andThen_after]
    rfl
  change Outcome _ (((uartProps root items).find? _).map _) _ at hfold
  rw [regBegin_settings hbegin] at hsettles
  rw [hwalk, infoOfFour, regOfFour]
  cases hfound : (uartProps root items).find? fun p => p.Hit target with
  | some p =>
    rw [hfound] at hfold
    obtain ⟨r, hr, hresult⟩ := hfold
    have hinfo := info_eq hresult fun info hinfo => hsettles info (by rw [hr, hinfo])
    rw [hr, hinfo]
    rfl
  | none =>
    rw [hfound] at hfold
    obtain ⟨s', hs', hd, hopen'⟩ := hfold
    obtain ⟨s'', hs'', -⟩ := regEnd_ok hopen'.inv
    rw [hs']
    change (regEnd s' >>= _) >>= _ = _
    rw [hs'']
    rfl

/-- So it finds the address and the size that the tree gives. -/
theorem findReg_four {b : Blob} {root : Bytes} {items : Items} (h : Flattens b root items)
    (htree : RangesTree root items) (target : Bytes) :
    ∃ r, findRegIn b target = .ok r ∧
      r.map (fun info => (info.addr, info.size)) = regOfFour root items target :=
  ⟨_, findReg_info h htree target, infoOfFour_place root items target⟩

end Fold

/-! ## Trees with four ranges at most -/

/-- A node has four ranges at most after a property, if it has before and a `ranges` has. -/
theorem UartNode.ranges_update {node : UartNode} {p : UInt32} {name value : Bytes}
    (hfour : name = ascii "ranges" → (node.rangeEntries p value).length ≤ 4)
    (hnode : node.ranges.length ≤ 4) : (node.update p name value).ranges.length ≤ 4 := by
  unfold update
  split_ifs with haddr hsize hranges
  · exact hnode
  · exact hnode
  · exact hfour hranges.1
  · exact hnode

/-- A node has four ranges at most after its properties, if each `ranges` has. -/
theorem Items.ranges_own (items : Items) {path : Bytes} {outer : List (List Range)} {p : UInt32}
    {own node : UartNode} (hsupported : ∀ q ∈ items.uartProps path outer p own node, q.Supported)
    (hnode : node.ranges.length ≤ 4) : (items.own p node).ranges.length ≤ 4 := by
  induction items generalizing node with
  | nil => exact hnode
  | prop name value rest ih =>
    rw [uartProps, List.forall_mem_cons] at hsupported
    exact ih hsupported.2 (UartNode.ranges_update hsupported.1.four hnode)
  | node name items rest _ ih =>
    rw [uartProps, List.forall_mem_append] at hsupported
    exact ih hsupported.2 hnode

/-- The nodes around a property have four ranges at most, if each `ranges` has. -/
theorem Items.ranges_outer (items : Items) {path : Bytes} {outer : List (List Range)} {p : UInt32}
    {own node : UartNode} (hsupported : ∀ q ∈ items.uartProps path outer p own node, q.Supported)
    (hown : own.ranges.length ≤ 4) (houter : ∀ ranges ∈ outer, ranges.length ≤ 4) :
    ∀ q ∈ items.uartProps path outer p own node, ∀ ranges ∈ q.outer, ranges.length ≤ 4 := by
  induction items generalizing path outer p own node with
  | nil => exact List.forall_mem_nil _
  | prop name value rest ih =>
    rw [uartProps, List.forall_mem_cons] at hsupported ⊢
    exact ⟨houter, ih hsupported.2 hown houter⟩
  | node name items rest ih ih' =>
    rw [uartProps, List.forall_mem_append] at hsupported ⊢
    refine ⟨ih hsupported.1 ?_ ?_, ih' hsupported.2 hown houter⟩
    · exact items.ranges_own hsupported.1 (Nat.zero_le 4)
    · rw [List.forall_mem_cons]
      exact ⟨hown, houter⟩

/-- Where each `ranges` has four entries at most, all of them count. -/
theorem regOf_eq_four {root : Bytes} {items : Items} (hsupported : ∀ p ∈ uartProps root items, p.Supported)
    (target : Bytes) : regOf root items target = regOfFour root items target := by
  have hown : (items.own 0 UartNode.root).ranges.length ≤ 4 :=
    items.ranges_own hsupported (Nat.zero_le 4)
  have houter := items.ranges_outer hsupported hown (List.forall_mem_nil _)
  unfold regOf regOfFour
  cases hfound : (uartProps root items).find? fun p => p.Hit target with
  | none => rfl
  | some p =>
    have hranges := houter p (List.mem_of_find?_eq_some hfound)
    have htake : ∀ ranges ∈ p.outer, ranges.take 4 = id ranges := fun ranges hmem =>
      List.take_of_length_le (hranges ranges hmem)
    have hcut : p.outer.map (List.take 4) = p.outer := by
      rw [List.map_congr_left htake, List.map_id]
    have hresult : p.cut.result = p.result := by
      have hphys : ∀ addr, p.cut.phys addr = p.phys addr := by
        intro addr
        unfold UartProp.phys UartProp.cut
        rw [hcut]
      unfold UartProp.result
      simp only [hphys]
      rfl
    exact hresult.symm

/-- `find_reg_by_path` finds what is in the tree, if each `ranges` has four entries at most. -/
theorem findReg_tree {b : Blob} {root : Bytes} {items : Items} (h : Flattens b root items)
    (htree : RegTree root items) (target : Bytes) :
    ∃ r, findRegIn b target = .ok r ∧
      r.map (fun info => (info.addr, info.size)) = regOf root items target := by
  rw [regOf_eq_four htree.supported]
  exact findReg_four h htree.rangesTree target

end Ralix.Dtb
