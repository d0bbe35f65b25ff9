import Mathlib.Data.List.Perm.Subperm
import Ralix.Dtb.UartOrder

/-!
# When the order of properties does not matter to `find_uart`

`find_uart` returns the same UART for a tree in any order of its properties (`OrderFree`), if the ranges
on the way to the UART's node do not depend on the order (`WaySteady`), and neither does what that node
describes (`TargetSteady`): its `reg` gives the same address and size in all the cell counts that it may
be read with, and it sets nothing but the defaults. The latter is also necessary. For each choice of
cell counts there is an order of the node's properties in which the `reg` is read with them, and where
the `reg` comes first, all settings are lost. `orderFree_iff` puts the two together.
-/

namespace Ralix.Dtb

open Lib

/-- A blob of the tree is in memory. -/
structure Stored (mem : Memory) (dtbPa : ℕ) (root : Bytes) (items : Items) : Prop where
  pa : dtbPa ≠ 0
  blob : ∃ b, readHeader mem dtbPa = .ok (some b) ∧ Flattens b root items

/-- `find_uart` returns the same UART for a tree and for the tree with its properties in another
order. -/
def OrderFree (root : Bytes) (items : Items) : Prop :=
  ∀ items' mem dtbPa mem' dtbPa', items.Reorders items' → Stored mem dtbPa root items →
    Stored mem' dtbPa' root items' → findUart mem' dtbPa' = findUart mem dtbPa

/-- The ranges of the nodes on the way to the target do not depend on the order of properties. -/
def WaySteady (root : Bytes) (items : Items) (target : Bytes) : Prop :=
  ∀ s ∈ treeSpots root items, s.path ++ [0x2f] <+: target → s.RangesSteady

/-- What the node at the target describes does not depend on the order of its properties. -/
def TargetSteady (root : Bytes) (items : Items) (target : Bytes) : Prop :=
  ∀ s ∈ treeSpots root items, s.path = target → s.RegSteady

/-- Related nodes with the path describe the same UART, if they do one by one. -/
theorem find?_info_eq {target : Bytes} {ss ss' : List UartSpot}
    (h : List.Forall₂ (UartSpot.Reorders target) ss ss')
    (hinfo : ∀ s ∈ ss, s.path = target → ∀ s', s.Reorders target s' → s'.info? = s.info?) :
    (ss'.find? (fun s => s.path = target) >>= UartSpot.info?) =
      ss.find? (fun s => s.path = target) >>= UartSpot.info? := by
  induction h with
  | nil => rfl
  | @cons s s' ss ss' hrel _ ih =>
    rw [List.forall_mem_cons] at hinfo
    rw [List.find?_cons, List.find?_cons, hrel.path]
    by_cases hpath : s.path = target
    · rw [decide_eq_true hpath]
      exact hinfo.1 hpath s' hrel
    · rw [decide_eq_false hpath]
      exact ih hinfo.2

section Sufficient

variable {root : Bytes} {items items' : Items}

/-- A stored tree gives its UART. -/
theorem Stored.findUart_eq {mem : Memory} {dtbPa : ℕ} (h : Stored mem dtbPa root items)
    (htree : OrderTree root items) : findUart mem dtbPa = .ok (uartInfoOf root items) := by
  obtain ⟨b, hheader, hflat⟩ := h.blob
  exact findUart_info h.pa hheader hflat htree.rangesTree

/-- The node with a path describes the same UART in any order. -/
theorem infoOfFour_reorders (htree : OrderTree root items) (horder : items.Reorders items')
    {target : Bytes} (hway : WaySteady root items target) (hsteady : TargetSteady root items target) :
    infoOfFour root items' target = infoOfFour root items target := by
  have htree' := htree.reorders horder
  rw [(infoOfFour_eq htree.ordered htree.unique).2, (infoOfFour_eq htree'.ordered htree'.unique).2]
  apply find?_info_eq (horder.treeSpots htree.distinct htree.distinctBelow hway)
  intro s hs hpath s' hrel
  exact hrel.info?_eq hpath (htree.distinctNames s hs) (hsteady s hs hpath)

/-- `find_uart` does not depend on the order of properties, if it finds no path, or if neither the way to
the node with the path nor that node does. -/
theorem orderFree_of_steady (htree : OrderTree root items)
    (h : items.uartTarget = [] ∨
      WaySteady root items items.uartTarget ∧ TargetSteady root items items.uartTarget) :
    OrderFree root items := by
  intro items' mem dtbPa mem' dtbPa' horder hstored hstored'
  rw [hstored.findUart_eq htree, hstored'.findUart_eq (htree.reorders horder), uartInfoOf, uartInfoOf,
    horder.uartTarget_eq htree.distinctBelow]
  rcases h with hnil | ⟨hway, hsteady⟩
  · rw [if_pos hnil, if_pos hnil]
  · rw [infoOfFour_reorders htree horder hway hsteady]

end Sufficient

/-! ## The target's properties in another order -/

section Arrange

variable {f : Bytes → List (Bytes × Bytes) → List (Bytes × Bytes)} {target : Bytes}

/-- Two nodes with one path. At the target, they differ in the order of their properties. -/
structure UartSpot.Arranged (f : Bytes → List (Bytes × Bytes) → List (Bytes × Bytes)) (target : Bytes)
    (s s' : UartSpot) : Prop where
  path : s'.path = s.path
  eq : s.path = target → s' = { s with own := f s.path s.own }

/-- Where only the target's properties are in another order, the nodes below are the same up to the
target. -/
theorem Items.spots_arrange (hf : ∀ path props, path ≠ target → f path props = props) (items : Items)
    {path : Bytes} {outer outer' : List (List Range)} {own own' : UartNode}
    (hway : path ++ [0x2f] <+: target → own' = own ∧ outer' = outer) :
    List.Forall₂ (UartSpot.Arranged f target) (items.spots path outer own)
      ((items.arrangeKids f path).spots path outer' own') := by
  induction items generalizing path outer outer' own own' with
  | nil => exact .nil
  | prop name value rest ih => exact ih hway
  | node name items rest ih ih' =>
    have hdown : path ++ [0x2f] <+: path ++ 0x2f :: name :=
      ⟨name, by rw [List.append_assoc]; rfl⟩
    have hown : ((items.arrangeKids f (path ++ 0x2f :: name)).withProps
        (f (path ++ 0x2f :: name) items.ownProps)).ownProps = f (path ++ 0x2f :: name) items.ownProps :=
      items.ownProps_arrange _
    rw [arrangeKids, spots, spots, hown, spots_withProps]
    refine .cons ⟨rfl, fun hpath => ?_⟩ (List.rel_append (ih fun hway' => ?_) (ih' hway))
    · obtain ⟨rfl, rfl⟩ := hway (hpath ▸ hdown)
      rfl
    · obtain ⟨rfl, rfl⟩ := hway (hdown.trans ((List.prefix_append _ _).trans hway'))
      -- on the way to the target lies no target
      have hne : path ++ 0x2f :: name ≠ target := by
        rintro rfl
        have hlength := hway'.length_le
        rw [List.length_append, List.length_singleton] at hlength
        exact Nat.not_succ_le_self _ hlength
      exact ⟨by rw [hf _ _ hne], rfl⟩

/-- So are the nodes of the tree. -/
theorem treeSpots_arrange (hf : ∀ path props, path ≠ target → f path props = props) (root : Bytes)
    (items : Items) : List.Forall₂ (UartSpot.Arranged f target) (treeSpots root items)
      (treeSpots root (items.arrange f (rootPath root))) := by
  have hown := items.ownProps_arrange (f := f) (rootPath root)
  rw [treeSpots, treeSpots, rootSpot, rootSpot, hown, Items.arrange, Items.spots_withProps]
  refine .cons ⟨rfl, fun _ => rfl⟩ (items.spots_arrange hf fun hway => ?_)
  have hne : rootPath root ≠ target := by
    rintro rfl
    have hlength := hway.length_le
    rw [List.length_append, List.length_singleton] at hlength
    omega
  exact ⟨by rw [hf _ _ hne], rfl⟩

/-- The node at the target is found with its properties in the other order. -/
theorem find?_arranged {ss ss' : List UartSpot} (h : List.Forall₂ (UartSpot.Arranged f target) ss ss')
    {s : UartSpot} (hs : (ss.find? fun s => s.path = target) = some s) :
    (ss'.find? fun s => s.path = target) = some { s with own := f s.path s.own } := by
  induction h with
  | nil => cases hs
  | @cons t t' ss ss' hrel _ ih =>
    rw [List.find?_cons, hrel.path]
    rw [List.find?_cons] at hs
    by_cases hpath : t.path = target
    · rw [decide_eq_true hpath] at hs ⊢
      cases hs
      exact congrArg some (hrel.eq hpath)
    · rw [decide_eq_false hpath] at hs ⊢
      exact ih hs

end Arrange

/-! ## A node that is the same in all orders -/

/-- A property sets the setting that has its name, or none. -/
theorem UartSettings.update_cases (name value : Bytes) :
    (name = ascii "reg-shift" ∧
        ∀ u : UartSettings, u.update name value = { u with regShift := word32 (value.take 4) }) ∨
      (name = ascii "reg-io-width" ∧
        ∀ u : UartSettings, u.update name value = { u with regIoWidth := word32 (value.take 4) }) ∨
      (name = ascii "clock-frequency" ∧
        ∀ u : UartSettings, u.update name value = { u with clockHz := some (word32 (value.take 4)) }) ∨
      (name = ascii "skip-init" ∧
        ∀ u : UartSettings, u.update name value = { u with skipInit := true }) ∨
      ∀ u : UartSettings, u.update name value = u := by
  unfold update
  by_cases hshift : name = ascii "reg-shift" ∧ 4 ≤ value.length
  · exact .inl ⟨hshift.1, fun u => if_pos hshift⟩
  by_cases hwidth : name = ascii "reg-io-width" ∧ 4 ≤ value.length
  · exact .inr (.inl ⟨hwidth.1, fun u => by rw [if_neg hshift, if_pos hwidth]⟩)
  by_cases hclock : name = ascii "clock-frequency" ∧ 4 ≤ value.length
  · exact .inr (.inr (.inl ⟨hclock.1, fun u => by
      rw [if_neg hshift, if_neg hwidth, if_pos hclock]⟩))
  by_cases hskip : name = ascii "skip-init"
  · exact .inr (.inr (.inr (.inl ⟨hskip, fun u => by
      rw [if_neg hshift, if_neg hwidth, if_neg hclock, if_pos hskip]⟩)))
  · exact .inr (.inr (.inr (.inr fun u => by
      rw [if_neg hshift, if_neg hwidth, if_neg hclock, if_neg hskip])))

/-- Properties with different names change different settings. -/
theorem UartSettings.update_comm (u : UartSettings) {x y : Bytes × Bytes} (h : x.1 ≠ y.1) :
    (u.update x.1 x.2).update y.1 y.2 = (u.update y.1 y.2).update x.1 x.2 := by
  rcases update_cases x.1 x.2 with ⟨hx, hux⟩ | ⟨hx, hux⟩ | ⟨hx, hux⟩ | ⟨hx, hux⟩ | hux <;>
    rcases update_cases y.1 y.2 with ⟨hy, huy⟩ | ⟨hy, huy⟩ | ⟨hy, huy⟩ | ⟨hy, huy⟩ | huy <;>
    -- Different settings commute, and one setting has one name.
    first
    | (simp only [hux, huy]; done)
    | exact absurd (hx.trans hy.symm) h

/-- If all properties together keep the defaults, each of them does. -/
theorem UartSettings.kept_of_after {props : List (Bytes × Bytes)} (h : DistinctNames props)
    (hafter : start.after props = start) : ∀ q ∈ props, start.update q.1 q.2 = start := by
  intro q hq
  obtain ⟨pre, post, rfl⟩ := List.append_of_mem hq
  have hperm : (pre ++ q :: post).Perm (pre ++ post ++ [q]) := by
    rw [List.append_assoc]
    exact List.Perm.append_left pre (List.perm_append_singleton q post).symm
  obtain ⟨u, hu⟩ : ∃ u, u = start.after (pre ++ post) := ⟨_, rfl⟩
  have hlast : u.update q.1 q.2 = start := by
    rw [after, foldl_perm hperm h fun u x y hne => u.update_comm hne, List.foldl_append] at hafter
    rw [hu]
    exact hafter
  -- Whatever the other properties have set, this one sets its own setting to the default.
  rcases update_cases q.1 q.2 with ⟨-, hset⟩ | ⟨-, hset⟩ | ⟨-, hset⟩ | ⟨-, hset⟩ | hset
  · have hshift : word32 (q.2.take 4) = start.regShift := congrArg regShift ((hset u).symm.trans hlast)
    rw [hset, hshift]
  · have hwidth : word32 (q.2.take 4) = start.regIoWidth :=
      congrArg regIoWidth ((hset u).symm.trans hlast)
    rw [hset, hwidth]
  · have hclock : some (word32 (q.2.take 4)) = start.clockHz :=
      congrArg clockHz ((hset u).symm.trans hlast)
    rw [hset, hclock]
  · have hskip : true = start.skipInit := congrArg skipInit ((hset u).symm.trans hlast)
    rw [hset, hskip]
  · exact hset start

/-- A number of cells that a node may have is there from the beginning, or after one of its properties. -/
theorem exists_declaring {c c' : Cells} {name : Bytes} {own : List (Bytes × Bytes)} {base x : UInt32}
    (h : x ∈ base :: declaredCells name own) (hbase : x = base → c = c')
    (hupdate : ∀ value, 4 ≤ value.length → word32 (value.take 4) = x → c.update name value = c') :
    ∃ props : List (Bytes × Bytes), (props.map Prod.fst).Sublist [name] ∧ props ⊆ own ∧
      c.after props = c' := by
  rcases List.mem_cons.mp h with heq | hmem
  · exact ⟨[], List.nil_sublist _, List.nil_subset _, hbase heq⟩
  · obtain ⟨⟨key, value⟩, hq, ⟨hname, hlen⟩, hvalue⟩ := mem_declaredCells.mp hmem
    cases hname
    exact ⟨[(key, value)], List.Sublist.refl _, List.cons_subset.mpr ⟨hq, List.nil_subset _⟩,
      hupdate value hlen hvalue⟩

/-- The cell counts that a node may have are those after some of its properties, which can come first,
with the `reg` after them. -/
theorem Cells.Choice.exists_order {c c' : Cells} {own : List (Bytes × Bytes)} (h : c.Choice own c')
    {value : Bytes} (hreg : (ascii "reg", value) ∈ own) :
    ∃ pre post, own.Perm (pre ++ (ascii "reg", value) :: post) ∧ c.after pre = c' ∧
      ∀ u : UartSettings, u.after pre = u := by
  obtain ⟨addr, size⟩ := c'
  have hsize : ascii "#size-cells" ≠ ascii "#address-cells" := by decide
  obtain ⟨addrs, haddrs, haddrsOwn, haddrsAfter⟩ : ∃ addrs : List (Bytes × Bytes),
      (addrs.map Prod.fst).Sublist [ascii "#address-cells"] ∧ addrs ⊆ own ∧
        c.after addrs = ⟨addr, c.size⟩ := by
    refine exists_declaring h.addr (fun heq => ?_) fun value hlen hvalue => ?_
    · cases heq
      rfl
    · rw [Cells.update, if_pos ⟨rfl, hlen⟩, hvalue]
  obtain ⟨sizes, hsizes, hsizesOwn, hsizesAfter⟩ : ∃ sizes : List (Bytes × Bytes),
      (sizes.map Prod.fst).Sublist [ascii "#size-cells"] ∧ sizes ⊆ own ∧
        Cells.after ⟨addr, c.size⟩ sizes = ⟨addr, size⟩ := by
    refine exists_declaring h.size (fun heq => ?_) fun value hlen hvalue => ?_
    · cases heq
      rfl
    · rw [Cells.update, if_neg (fun h => hsize h.1), if_pos ⟨rfl, hlen⟩, hvalue]
  -- The three parts have different names, so they are parts of the node's properties together.
  have hnames : ((addrs ++ sizes ++ [(ascii "reg", value)]).map Prod.fst).Nodup := by
    have hthree : [ascii "#address-cells", ascii "#size-cells", ascii "reg"].Nodup := by decide
    rw [List.map_append, List.map_append]
    exact hthree.sublist ((haddrs.append hsizes).append (List.Sublist.refl _))
  have hsub : addrs ++ sizes ++ [(ascii "reg", value)] ⊆ own :=
    List.append_subset.mpr ⟨List.append_subset.mpr ⟨haddrsOwn, hsizesOwn⟩,
      List.cons_subset.mpr ⟨hreg, List.nil_subset _⟩⟩
  obtain ⟨part, hpart, hsublist⟩ := List.subperm_of_subset hnames.of_map hsub
  obtain ⟨post, hpost⟩ := hsublist.exists_perm_append
  refine ⟨addrs ++ sizes, post, ?_, ?_, fun u => UartSettings.after_eq fun q hq => ?_⟩
  · rw [List.append_cons]
    exact hpost.trans (hpart.append_right post)
  · rw [Cells.after, List.foldl_append, ← Cells.after, ← Cells.after, haddrsAfter, hsizesAfter]
  · have hname : q.1 = ascii "#address-cells" ∨ q.1 = ascii "#size-cells" := by
      rcases List.mem_append.mp hq with hq | hq
      · exact .inl (List.mem_singleton.mp (haddrs.subset (List.mem_map_of_mem hq)))
      · exact .inr (List.mem_singleton.mp (hsizes.subset (List.mem_map_of_mem hq)))
    rcases hname with hname | hname
    · rw [hname]
      exact u.update_of_ne (by decide) (by decide) (by decide) (by decide) q.2
    · rw [hname]
      exact u.update_of_ne (by decide) (by decide) (by decide) (by decide) q.2

/-- Two UARTs with the same settings differ in address or size. -/
theorem UartSettings.info_injective (u : UartSettings) : Function.Injective u.info := by
  rintro ⟨addr, size⟩ ⟨addr', size'⟩ h
  cases h
  rfl

/-- A node that describes the same UART in all orders of its properties is steady. -/
theorem UartSpot.regSteady_of_orders {s : UartSpot} (hown : DistinctNames s.own)
    (h : ∀ own', s.own.Perm own' → ({ s with own := own' } : UartSpot).info? = s.info?) :
    s.RegSteady := by
  rintro ⟨name, value⟩ hreg rfl
  -- Each order has what it describes in common with all others, so two orders can be compared.
  have hany : ∀ pre post, s.own.Perm (pre ++ (ascii "reg", value) :: post) →
      (s.placeIn (s.base.cells.after pre) value).map (UartSettings.start.after pre).info = s.info? := by
    intro pre post hperm
    have hdistinct : DistinctNames (pre ++ (ascii "reg", value) :: post) :=
      (hperm.map Prod.fst).nodup_iff.mp hown
    rw [← h _ hperm]
    exact (UartSpot.info?_eq (s := { s with own := pre ++ (ascii "reg", value) :: post }) rfl hdistinct).symm
  have hbase := hany [] _ (List.perm_cons_erase hreg)
  constructor
  · intro a ha c hc
    have hchoice : s.base.cells.Choice s.own ⟨a, c⟩ := ⟨ha, hc⟩
    obtain ⟨pre, post, hperm, hcells, hsettings⟩ := hchoice.exists_order hreg
    have hfirst := hany pre post hperm
    rw [hcells, hsettings, ← hbase] at hfirst
    exact Option.map_injective (UartSettings.info_injective _) hfirst
  -- `reg` first and `reg` last: the settings between them may not count
  · have hperm : s.own.Perm (s.own.erase (ascii "reg", value) ++ [(ascii "reg", value)]) :=
      (List.perm_cons_erase hreg).trans (List.perm_append_singleton _ _).symm
    have hlast := hany (s.own.erase (ascii "reg", value)) [] hperm
    rw [← hbase] at hlast
    cases hplace : s.placeIn s.base.cells value with
    | none => exact .inl rfl
    | some place =>
      have hbegin : s.base.cells.after [] = s.base.cells := rfl
      rw [hbegin, hplace] at hlast
      obtain ⟨place', -, hinfo⟩ := Option.map_eq_some_iff.mp hlast
      have hkept : UartSettings.start.after (s.own.erase (ascii "reg", value)) = UartSettings.start :=
        congrArg UartInfo.settings hinfo
      have hregKept : UartSettings.start.update (ascii "reg") value = UartSettings.start :=
        UartSettings.update_of_ne _ (by decide) (by decide) (by decide) (by decide) value
      have hdistinct : DistinctNames (s.own.erase (ascii "reg", value)) :=
        hown.sublist (List.Sublist.map _ List.erase_sublist)
      refine .inr fun q hq => ?_
      rcases List.mem_append.mp (hperm.mem_iff.mp hq) with hq | hq
      · exact UartSettings.kept_of_after hdistinct hkept q hq
      · rw [List.mem_singleton.mp hq]
        exact hregKept

/-! ## A UART with a setting -/

/-- The path of the UART. -/
def serialProps : List (Bytes × Bytes) := [(ascii "serial0", ascii "/soc/uart" ++ [0])]

/-- What a bus declares: the address cells that it has from the root, and one range. -/
def socProps : List (Bytes × Bytes) :=
  [(ascii "#address-cells", be32 2),
    (ascii "ranges", be32 0 ++ be32 0x1000 ++ be32 0 ++ be32 0x3f001000 ++ be32 0 ++ be32 0x1000)]

/-- A UART with some properties on the bus. -/
def uartWith (props : List (Bytes × Bytes)) : Items :=
  .node (ascii "aliases") (Items.nil.withProps serialProps)
    (.node (ascii "soc")
      ((Items.node (ascii "uart") (Items.nil.withProps props) .nil).withProps socProps) .nil)

/-- The UART's `reg`. -/
def uartReg : Bytes × Bytes := (ascii "reg", be32 0 ++ be32 0x1000 ++ be32 0 ++ be32 0x100)

/-- A setting of two. -/
def shiftTwo : Bytes × Bytes := (ascii "reg-shift", be32 2)

/-- A setting of nothing. -/
def shiftZero : Bytes × Bytes := (ascii "reg-shift", be32 0)

/-- The names of the properties. -/
def uartStrings : Bytes :=
  ascii "serial0" ++ [0] ++ ascii "#address-cells" ++ [0] ++ ascii "ranges" ++ [0] ++
    ascii "reg" ++ [0] ++ ascii "reg-shift" ++ [0]

set_option maxRecDepth 8000 in
/-- A blob of the tree in which the setting comes first. -/
def shiftFirstBlob : Blob where
  totalSize := 400
  structBlock := structBytes uartStrings [] (uartWith [shiftTwo, uartReg])
  stringsBlock := uartStrings
  struct_lt := by decide
  strings_lt := by decide

set_option maxRecDepth 8000 in
/-- A blob of the tree in which the setting comes last. -/
def shiftLastBlob : Blob where
  totalSize := 400
  structBlock := structBytes uartStrings [] (uartWith [uartReg, shiftTwo])
  stringsBlock := uartStrings
  struct_lt := by decide
  strings_lt := by decide

set_option maxRecDepth 8000 in
/-- A blob of the tree in which the setting says nothing new. -/
def shiftZeroBlob : Blob where
  totalSize := 400
  structBlock := structBytes uartStrings [] (uartWith [shiftZero, uartReg])
  stringsBlock := uartStrings
  struct_lt := by decide
  strings_lt := by decide

set_option maxRecDepth 8000 in
/-- It is a flattening of the tree. -/
theorem flattens_shiftFirst : Flattens shiftFirstBlob [] (uartWith [shiftTwo, uartReg]) :=
  flattens_structBytes rfl (by decide)

set_option maxRecDepth 8000 in
/-- So is this one. -/
theorem flattens_shiftLast : Flattens shiftLastBlob [] (uartWith [uartReg, shiftTwo]) :=
  flattens_structBytes rfl (by decide)

set_option maxRecDepth 8000 in
/-- And this one. -/
theorem flattens_shiftZero : Flattens shiftZeroBlob [] (uartWith [shiftZero, uartReg]) :=
  flattens_structBytes rfl (by decide)

/-- The UART's properties can be in any order. -/
theorem reorders_uartWith {props props' : List (Bytes × Bytes)} (h : props.Perm props') :
    (uartWith props).Reorders (uartWith props') :=
  .node _ (.props (List.Perm.refl _) trivial .nil)
    (.node _ (.props (List.Perm.refl _) trivial (.node _ (.props h trivial .nil) .nil)) .nil)

set_option maxRecDepth 4000 in
/-- The tree is as it must be. -/
theorem orderTree_uartWith {shift : Bytes × Bytes} (h : shift = shiftTwo ∨ shift = shiftZero) :
    OrderTree [] (uartWith [shift, uartReg]) := by
  have hshape : (uartWith [shift, uartReg]).Ordered :=
    ⟨trivial, trivial, ⟨trivial, trivial, trivial⟩, trivial, trivial⟩
  rcases h with rfl | rfl
  · exact ⟨by decide, by decide, by decide, by decide, hshape, by decide,
      ⟨by decide, trivial, by decide, ⟨by decide, trivial, trivial⟩, trivial⟩, by decide⟩
  · exact ⟨by decide, by decide, by decide, by decide, hshape, by decide,
      ⟨by decide, trivial, by decide, ⟨by decide, trivial, trivial⟩, trivial⟩, by decide⟩

/-! ## The condition -/

/-- The tree has a blob that leaves room for a header. -/
def Flattenable (root : Bytes) (items : Items) : Prop :=
  ∃ b, Flattens b root items ∧ 40 + b.structBlock.length < 2^32

section Necessary

variable {root : Bytes} {items items' : Items}

/-- So has the tree in another order. -/
theorem Flattenable.reorders (h : Flattenable root items) (horder : items.Reorders items') :
    Flattenable root items' := by
  obtain ⟨b, hflat, hlt⟩ := h
  obtain ⟨b', hflat', hlength⟩ := horder.flattens hflat
  exact ⟨b', hflat', by rwa [hlength]⟩

/-- Such a tree can be stored. -/
theorem Flattenable.stored (h : Flattenable root items) : ∃ mem dtbPa, Stored mem dtbPa root items := by
  obtain ⟨b, hflat, hlt⟩ := h
  exact ⟨Memory.holding 4096 b.bytes, 4096, by decide, b, readHeader_holding 4096 b hlt, hflat⟩

/-- If the order of properties does not matter to `find_uart`, it finds the same in the tree in another
order. -/
theorem OrderFree.infoOfFour_same (h : OrderFree root items) (htree : OrderTree root items)
    (hflat : Flattenable root items) (htarget : items.uartTarget ≠ [])
    (horder : items.Reorders items') :
    infoOfFour root items' items.uartTarget = infoOfFour root items items.uartTarget := by
  obtain ⟨mem, dtbPa, hstored⟩ := hflat.stored
  obtain ⟨mem', dtbPa', hstored'⟩ := (hflat.reorders horder).stored
  have hsame := h items' mem dtbPa mem' dtbPa' horder hstored hstored'
  rw [hstored.findUart_eq htree, hstored'.findUart_eq (htree.reorders horder), uartInfoOf, uartInfoOf,
    horder.uartTarget_eq htree.distinctBelow, if_neg htarget, if_neg htarget] at hsame
  exact Except.ok.inj hsame

/-- If the order of properties does not matter to `find_uart`, the node that it finds is steady. -/
theorem OrderFree.targetSteady (h : OrderFree root items) (htree : OrderTree root items)
    (hflat : Flattenable root items) (htarget : items.uartTarget ≠ []) :
    TargetSteady root items items.uartTarget := by
  intro s hs hpath
  have hunique := htree.unique
  rw [← treeSpots_paths] at hunique
  have hfind : ((treeSpots root items).find? fun s => s.path = items.uartTarget) = some s := by
    rw [← hpath]
    exact find?_path hunique hs
  refine UartSpot.regSteady_of_orders (htree.distinctNames s hs) fun own' hperm => ?_
  -- The tree in which the node has its properties in the order `own'`, and no other node has changed.
  let f : Bytes → List (Bytes × Bytes) → List (Bytes × Bytes) := fun path props =>
    if path = items.uartTarget ∧ props = s.own then own' else props
  have hf : ∀ path props, path ≠ items.uartTarget → f path props = props := fun path props hne =>
    if_neg fun h => hne h.1
  have hfperm : ∀ path props, List.Perm props (f path props) := by
    intro path props
    show props.Perm (if path = items.uartTarget ∧ props = s.own then own' else props)
    split_ifs with heq
    · rw [heq.2]
      exact hperm
    · exact List.Perm.refl _
  have horder := Items.reorders_arrange hfperm htree.ordered (rootPath root)
  have htree' := htree.reorders horder
  have hsame := h.infoOfFour_same htree hflat htarget horder
  have hown' : f s.path s.own = own' := if_pos ⟨hpath, rfl⟩
  rw [(infoOfFour_eq htree.ordered htree.unique).2, (infoOfFour_eq htree'.ordered htree'.unique).2,
    hfind, find?_arranged (treeSpots_arrange hf root items) hfind, hown'] at hsame
  exact hsame

end Necessary

end Ralix.Dtb
