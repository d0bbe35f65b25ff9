import Ralix.Dtb.Reads
import Ralix.Dtb.UartTree

/-!
# Paths longer than a buffer

`find_uart` keeps the path that it looks for and the path of the open node in buffers of 256 bytes, and
what does not fit is cut off without a sign. So `find_reg_by_path` compares the first 256 bytes of two
paths. `Named` says what is in the buffer and among the saved lengths at a place of the tree, for names
of any length, and `regVisitor_named` that the walk keeps it. `fullPath_iff` says when the node whose
`reg` `find_uart` returns is the one with the whole path: if the strings that it goes by lose nothing
that tells them apart, which is so for strings below 256 bytes (`ToldApart.of_short`).
-/

namespace Ralix.Dtb

open Lib

/-! ## Whole strings and paths -/

/-- The value of an alias, at any length. -/
def Items.aliasString (items : Items) (aliasName : Bytes) : Option Bytes :=
  (items.scanned (ascii "aliases") aliasName).map (stringOf none)

/-- `stdout-path` up to a colon, at any length. -/
def Items.stdoutString (items : Items) : Option Bytes :=
  (items.scanned (ascii "chosen") (ascii "stdout-path")).map (stringOf (some 0x3a))

/-- The path of the UART: that of `serial0`; or else the `stdout-path`, if it starts with a slash; or
else that of the alias that this names. It is empty if there is none. -/
def Items.uartString (items : Items) : Bytes :=
  match items.aliasString (ascii "serial0") with
  | some path => path
  | none =>
    match items.stdoutString with
    | none => []
    | some [] => []
    | some (b :: rest) => if b = 0x2f then b :: rest else (items.aliasString (b :: rest)).getD []

/-- The path of a node, from the names from the root's on. -/
def pathOf : List Bytes → Bytes
  | [] => []
  | root :: names => rootPath root ++ names.flatMap fun name => 0x2f :: name

/-- One more name. Only a root without a name has no slash. -/
theorem pathOf_concat (names : List Bytes) (name : Bytes) : pathOf (names ++ [name]) =
    if names.length = 0 ∧ name = [] then pathOf names else pathOf names ++ 0x2f :: name := by
  cases names with
  | nil =>
    show rootPath name ++ [] = _
    rw [List.append_nil, rootPath]
    by_cases hname : name = []
    · rw [if_pos hname, if_pos ⟨rfl, hname⟩]
      rfl
    · rw [if_neg hname, if_neg fun h => hname h.2]
      rfl
  | cons root names =>
    rw [if_neg fun h => Nat.succ_ne_zero _ h.1]
    show rootPath root ++ (names ++ [name]).flatMap _ = (rootPath root ++ names.flatMap _) ++ _
    rw [List.flatMap_append, List.flatMap_singleton, List.append_assoc]

/-- The path around comes first. -/
theorem pathOf_pre (names : List Bytes) (name : Bytes) : pathOf names <+: pathOf (names ++ [name]) := by
  rw [pathOf_concat]
  split_ifs
  · exact List.prefix_refl _
  · exact List.prefix_append _ _

/-- The path of the node that a property is in. -/
def Read.path (r : Read) : Bytes := pathOf r.place.path

/-! ## The path in the buffer -/

/-- The open nodes have the names: the buffer holds their path as far as it fits, and the lengths of the
paths around are saved. -/
structure RegWalk.Named (s : RegWalk) (names : List Bytes) : Prop where
  inv : s.Inv
  depth : s.depth = names.length
  path : s.path.Holds ((pathOf names).take 256)
  lens : ∀ i, i < names.length →
    s.pathLenStack[i]? = some ((pathOf (names.take i)).take 256).length

namespace RegWalk.Named

variable {s s' : RegWalk} {names : List Bytes} {name : Bytes}

/-- At the start, no node is open. -/
theorem start : RegWalk.start.Named [] where
  inv := RegWalk.inv_start
  depth := rfl
  path := SmallBuf.holds_new
  lens i hi := absurd hi (Nat.not_lt_zero i)

/-- The path of a node that begins is held as far as it fits. -/
theorem pathEnter_holds (h : s.Named names) (name : Bytes) :
    ∃ path, pathEnter s name = .ok path ∧ path.Holds ((pathOf (names ++ [name])).take 256) := by
  rw [pathEnter, h.depth, pathOf_concat]
  by_cases hroot : names.length = 0 ∧ name = []
  · rw [if_pos hroot, if_pos hroot]
    exact ⟨s.path, rfl, h.path⟩
  · rw [if_neg hroot, if_neg hroot]
    obtain ⟨path, hpath, hholds⟩ := SmallBuf.enter_cut h.path name
    refine ⟨path, hpath, ?_⟩
    -- cutting the path around first changes nothing
    have hcut : ((pathOf names).take 256 ++ 0x2f :: name).take 256 =
        (pathOf names ++ 0x2f :: name).take 256 := by
      rw [List.take_append, List.take_append, List.take_take, Nat.min_self, List.length_take]
      congr 2
      omega
    rwa [hcut] at hholds

/-- A node is entered. -/
theorem begin (h : s.Named names) (hlt : names.length < 32) (hbegin : regBegin name s = .ok s') :
    s'.Named (names ++ [name]) := by
  have hdepth := h.depth
  have hlenLength := h.inv.lenLength
  have hlength := h.inv.length
  have hinv := regBegin_inv h.inv hbegin
  obtain ⟨lens, path, parent, hlens, hpath, -, hcases⟩ := regBegin_cases hbegin
  rw [pathLenPush, if_pos (by omega), setIndex_ok (by omega)] at hlens
  cases hlens
  obtain ⟨path', hpath', hholds⟩ := h.pathEnter_holds name
  cases hpath.symm.trans hpath'
  obtain ⟨-, rfl⟩ := hcases.resolve_right fun hfull => by omega
  constructor
  · exact hinv
  · show s.depth + 1 = _
    rw [hdepth, List.length_append, List.length_singleton]
  · exact hholds
  · intro i hi
    rw [List.length_append, List.length_singleton] at hi
    show (s.pathLenStack.set s.depth s.path.len)[i]? = _
    rw [List.take_append_of_le_length (by omega)]
    by_cases hlast : i = names.length
    · rw [hlast, hdepth, List.getElem?_set_self (by omega), List.take_length, h.path.len_eq]
    · rw [List.getElem?_set_ne (by omega)]
      exact h.lens i (by omega)

/-- A node is left: the buffer still begins with the path around, and its length goes back. -/
theorem leave (h : s.Named (names ++ [name])) (hend : regEnd s = .ok s') : s'.Named names := by
  have hdepth := h.depth
  rw [List.length_append, List.length_singleton] at hdepth
  have hsaved := h.lens names.length (by rw [List.length_append, List.length_singleton]; omega)
  rw [List.take_left] at hsaved
  have hinv := regEnd_inv h.inv hend
  obtain ⟨len, -, hlen, rfl⟩ | ⟨hzero, -⟩ := regEnd_cases hend
  case inr => exact absurd hzero (by omega)
  rw [index, hdepth, Nat.add_sub_cancel, hsaved] at hlen
  cases hlen
  constructor
  · exact hinv
  · show s.depth - 1 = _
    rw [hdepth, Nat.add_sub_cancel]
  · refine ⟨hinv.path, ?_⟩
    show s.path.buf.take ((pathOf names).take 256).length = _
    obtain ⟨more, hmore⟩ := pathOf_pre names name
    have hle : ((pathOf names).take 256).length ≤ s.path.len := by
      rw [h.path.len_eq, ← hmore, List.length_take, List.length_take, List.length_append]
      omega
    calc s.path.buf.take ((pathOf names).take 256).length
        = (s.path.buf.take s.path.len).take ((pathOf names).take 256).length := by
          rw [List.take_take, Nat.min_eq_left hle]
      _ = (pathOf names ++ more).take ((pathOf names).take 256).length := by
          rw [h.path.take, ← hmore, List.take_take, List.length_take,
            Nat.min_eq_left (Nat.min_le_left _ _)]
      _ = (pathOf names).take 256 := by
          rw [List.length_take, List.take_append_of_le_length (Nat.min_le_right _ _),
            ← List.take_eq_take_min]
  · intro i hi
    have hlens := h.lens i (by rw [List.length_append]; omega)
    rwa [List.take_append_of_le_length (by omega)] at hlens

/-- A property changes neither the path nor the lengths. -/
theorem prop (h : s.Named names) {target value : Bytes}
    (hprop : regProp target name value s = .ok (.next s')) : s'.Named names := by
  obtain ⟨hdepth, hpath, hlens⟩ := regProp_frame hprop
  constructor
  · exact regProp_inv h.inv hprop
  · rw [hdepth, h.depth]
  · rw [hpath]
    exact h.path
  · rw [hlens]
    exact h.lens

end RegWalk.Named

/-- What is in the buffer at a place, before any node below level 32. -/
structure PathStands (p : Place) (s : RegWalk) : Prop where
  inv : s.Inv
  names : p.deep = false → s.Named p.path

/-- `find_reg_by_path` has the path of the place in its buffer. -/
theorem regVisitor_named (target : Bytes) :
    (regVisitor target).Follows fun (_ : Unit) p s => PathStands p s where
  child := by
    intro _ p s hst name items
    obtain ⟨s', hbegin, hinv⟩ := regBegin_ok hst.inv name
    refine ⟨(), s', hbegin, ⟨hinv, fun hclean => ?_⟩, ?_⟩
    · obtain ⟨hclean, hlevel⟩ := Place.child_clean_iff.mp hclean
      exact (hst.names hclean).begin hlevel hbegin
    · intro t s'' ht hend
      obtain ⟨u, hu, hend⟩ := Exec.bind_eq_ok.mp hend
      cases hend
      -- the node that ends is the child that was entered
      obtain ⟨hpath, hfinish⟩ : (items.finish (p.child name items)).path = _ ∧ _ := Place.finish_child
      refine ⟨regEnd_inv ht.inv hu, fun hclean => ?_⟩
      have hnamed := ht.names ((Bool.eq_iff_iff.mpr hfinish).trans hclean)
      rw [hpath] at hnamed
      exact hnamed.leave hu
  prop := fun hst hprop => ⟨regProp_inv hst.inv hprop, fun hclean => (hst.names hclean).prop hprop⟩

/-! ## The property at which the walk returns -/

/-- The property is a `reg` with an entry, by the cell counts at its place. -/
structure Read.RegEntry (r : Read) : Prop where
  name : r.name = ascii "reg"
  pos : 0 < (r.place.ctx.addrCells + r.place.ctx.sizeCells).toNat
  length_le : (r.place.ctx.addrCells + r.place.ctx.sizeCells).toNat * 4 ≤ r.value.length

/-- The walk comes to the property with the path of its node, as far as it fits, and the cell counts of
its place. -/
structure Read.Reached (r : Read) (x : Seen RegWalk) : Prop where
  name : x.name = r.name
  value : x.value = r.value
  inside : 0 < x.before.depth
  path : x.before.path.Holds (r.path.take 256)
  node : ∃ node, index x.before.stack (x.before.depth - 1) = .ok node ∧ node.cells = r.place.ctx.cells

/-- The first entry is read as none exactly if there is none. -/
theorem firstReg_eq_none_iff {node : RegNode} {value : Bytes} : firstReg node value = .ok none ↔
    ¬(0 < (node.addrCells + node.sizeCells).toNat ∧
      (node.addrCells + node.sizeCells).toNat * 4 ≤ value.length) := by
  unfold firstReg
  dsimp only
  by_cases hzero : (node.addrCells + node.sizeCells).toNat = 0
  · rw [if_pos hzero, hzero]
    exact ⟨fun _ h => absurd h.1 (Nat.lt_irrefl 0), fun _ => rfl⟩
  rw [if_neg hzero]
  by_cases hlen : value.length < (node.addrCells + node.sizeCells).toNat * 4
  · rw [if_pos hlen]
    exact ⟨fun _ h => absurd h.2 (Nat.not_le.mpr hlen), fun _ => rfl⟩
  · rw [if_neg hlen]
    constructor
    · intro h
      obtain ⟨_, -, h⟩ := Exec.bind_eq_ok.mp h
      obtain ⟨_, -, h⟩ := Exec.bind_eq_ok.mp h
      obtain ⟨_, -, h⟩ := Exec.bind_eq_ok.mp h
      obtain ⟨_, -, h⟩ := Exec.bind_eq_ok.mp h
      cases h
    · exact fun h => absurd ⟨Nat.pos_of_ne_zero hzero, Nat.not_lt.mp hlen⟩ h

/-- At the `reg` of the node that it looks for, the walk returns exactly if there is an entry. -/
theorem regFound_done_iff {s : RegWalk} {node : RegNode} {value : Bytes}
    {i : Iter RegWalk (Option UartInfo)} (h : regFound s node value = .ok i) :
    (∃ res, i = .done res) ↔ firstReg node value ≠ .ok none := by
  obtain ⟨first, hfirst, h⟩ := Exec.bind_eq_ok.mp h
  rw [hfirst]
  cases first with
  | none =>
    cases h
    constructor
    · rintro ⟨res, ⟨⟩⟩
    · exact fun hne => absurd rfl hne
  | some entry =>
    obtain ⟨phys, -, h⟩ := Exec.bind_eq_ok.mp h
    have hdone : ∃ res, i = .done res := by
      cases phys with
      | none =>
        cases h
        exact ⟨_, rfl⟩
      | some phys =>
        cases h
        exact ⟨_, rfl⟩
    exact ⟨fun _ heq => Option.some_ne_none _ (Except.ok.inj heq), fun _ => hdone⟩

section Returns

variable {target : Bytes} {r : Read} {x : Seen RegWalk}

/-- The walk returns at a property that it comes to exactly if that is a `reg` with an entry, of a node
whose path begins like the target as far as that goes. -/
theorem Read.Reached.done_iff (h : r.Reached x) {i : Iter RegWalk (Option UartInfo)}
    (hprop : regProp target x.name x.value x.before = .ok i) :
    (∃ res, i = .done res) ↔ r.RegEntry ∧ r.path.take 256 = target := by
  have hnext : ∀ s, i = .next s → ¬∃ res, i = .done res := by
    rintro s rfl ⟨res, ⟨⟩⟩
  have hmatches := pathMatches_eq h.path.inv target
  rw [h.path.take] at hmatches
  rw [h.name, h.value] at hprop
  obtain ⟨hzero, -⟩ | ⟨node, p, node', -, hnode, -, -, hcases⟩ := regProp_cases hprop
  · exact absurd h.inside (Nat.not_lt.mpr hzero.le)
  rw [hmatches] at hcases
  obtain ⟨hpath, htarget⟩ | ⟨hpath, hi⟩ := hcases
  · have hpath := beq_iff_eq.mp (Except.ok.inj hpath)
    by_cases hreg : r.name = ascii "reg"
    · obtain ⟨top, htop, hcells⟩ := h.node
      cases hnode.symm.trans htop
      have haddr : node.addrCells = r.place.ctx.addrCells := congrArg Cells.addr hcells
      have hsize : node.sizeCells = r.place.ctx.sizeCells := congrArg Cells.size hcells
      rw [hreg, regTarget, if_neg (by decide), if_neg (by decide), if_neg (by decide),
        if_neg (by decide), if_pos rfl] at htarget
      rw [regFound_done_iff htarget, ne_eq, firstReg_eq_none_iff, not_not, haddr, hsize]
      constructor
      · exact fun hentry => ⟨⟨hreg, hentry.1, hentry.2⟩, hpath⟩
      · exact fun hentry => ⟨hentry.1.pos, hentry.1.length_le⟩
    · -- nothing else ends the walk
      obtain ⟨s', hs'⟩ := regTarget_next _ node hreg r.value
      cases htarget.symm.trans hs'
      exact ⟨fun hdone => absurd hdone (hnext s' rfl), fun h => absurd h.1.name hreg⟩
  · have hpath := beq_eq_false_iff_ne.mp (Except.ok.inj hpath)
    exact ⟨fun hdone => absurd hdone (hnext _ hi), fun h => absurd h.2 hpath⟩

end Returns

section Trees

variable {b : Blob} {root : Bytes} {items : Items}

/-- What `find_reg_by_path` comes to is a property of the tree, at the same place in document order,
with the path of its node and the cell counts of its place. -/
theorem regLog_reached (h : Flattens b root items) (hlevels : items.height + 1 ≤ 32) {target : Bytes}
    {k : ℕ} {x : Seen RegWalk} (hx : (regLog b target)[k]? = some x) :
    ∃ r, (treeReads root items)[k]? = some r ∧ r.Reached x := by
  obtain ⟨s, hbegin, -⟩ := regBegin_ok RegWalk.inv_start root
  have hnamed : s.Named [root] := RegWalk.Named.start.begin (by decide) hbegin
  have hpath : PathStands (Place.root root items) s := ⟨hnamed.inv, fun _ => hnamed⟩
  have hstands := (regVisitor_tracks target).stands_root RegWalk.inv_start rfl hbegin items
  have hfollows := (regVisitor_tracks target).follows.and (regVisitor_named target)
  obtain ⟨halong, -⟩ := hfollows.examined_reads (ω := ⟨[], ()⟩) (regVisitor_keeps target) h
    RegWalk.inv_start hbegin ⟨⟨hnamed.inv, hstands⟩, hpath⟩
  obtain ⟨r, hr, hname, hvalue, ⟨outer, _⟩, ⟨hinv, hcells⟩, hpath⟩ := halong.getElem hx
  refine ⟨r, hr, ?_⟩
  -- no node is below level 32
  have hclean : r.place.deep = false :=
    items.reads_clean (p := Place.root root items) rfl (by
      show 1 + items.height ≤ 32
      omega) r (List.mem_of_getElem? hr)
  obtain ⟨hframes, -⟩ := hcells.clean hclean
  obtain ⟨node, rest, hstack, hnode, -⟩ := List.map_eq_cons_iff.mp hframes
  constructor
  · exact hname
  · exact hvalue
  · exact pos_of_upTo hstack
  · exact (hpath.names hclean).path
  · exact ⟨node, index_top (hinv.depth_le.trans_eq hinv.length.symm) hstack, hnode⟩

/-- `find_reg_by_path` returns the UART at the property, the one with the index in the tree and in what
it comes to. -/
structure ReturnsAt (b : Blob) (target : Bytes) (reads : List Read) (info : UartInfo) (k : ℕ)
    (r : Read) : Prop where
  read : reads[k]? = some r
  seen : ∃ x, (regLog b target)[k]? = some x ∧ x.name = r.name ∧ x.value = r.value ∧
    regProp target x.name x.value x.before = .ok (.done (some info))

/-- The property is a `reg` with an entry, and the path of its node begins like the target as far as
that goes. -/
structure Read.Alike (target : Bytes) (r : Read) : Prop where
  entry : r.RegEntry
  path : r.path.take 256 = target

/-- `find_reg_by_path` is what returns the UART. -/
theorem findReg_of_findUart {mem : Memory} {dtbPa : ℕ} {info : UartInfo}
    (hheader : readHeader mem dtbPa = .ok (some b)) (h : Flattens b root items)
    (hfind : findUart mem dtbPa = .ok (some info)) :
    findRegIn b items.uartTarget = .ok (some info) := by
  have hpa : dtbPa ≠ 0 := by
    rintro rfl
    cases hfind
  rw [findUart_flattens hpa hheader h] at hfind
  split_ifs at hfind
  · cases hfind
  · exact hfind

/-- It returns at a property, and that is the first `reg` with an entry whose path begins like the
target. -/
theorem returnsAt_first (h : Flattens b root items) (hlevels : items.height + 1 ≤ 32) {target : Bytes}
    {info : UartInfo} (hfind : findRegIn b target = .ok (some info)) :
    (∃ k r, ReturnsAt b target (treeReads root items) info k r) ∧
      ∀ k r, ReturnsAt b target (treeReads root items) info k r → r.Alike target ∧
        ∀ i r', i < k → (treeReads root items)[i]? = some r' → ¬r'.Alike target := by
  have hend : ∀ s res, (regVisitor target).endNode s ≠ .ok (.done res) := by
    intro s res hdone
    obtain ⟨t, -, hdone⟩ := Exec.bind_eq_ok.mp hdone
    cases hdone
  have hfinish : ∀ s, (regVisitor target).finish s ≠ some info :=
    fun _ heq => Option.some_ne_none info heq.symm
  obtain ⟨log, x, hlog, hdone, hpasses⟩ :=
    examined_of_walk (regVisitor_keeps target) hend h RegWalk.inv_start hfinish hfind
  change regLog b target = _ at hlog
  have hlast : (regLog b target)[log.length]? = some x := by
    rw [hlog, List.getElem?_concat_length]
  -- before the last property of the log, the walk goes on
  have hbefore : ∀ i y, i < log.length → (regLog b target)[i]? = some y →
      (regVisitor target).Passes y := by
    intro i y hi hy
    rw [hlog, List.getElem?_append_left hi] at hy
    exact hpasses y (List.mem_of_getElem? hy)
  constructor
  · obtain ⟨r, hr, hreached⟩ := regLog_reached h hlevels hlast
    exact ⟨log.length, r, hr, x, hlast, hreached.name, hreached.value, hdone⟩
  · rintro k r ⟨hr, y, hy, -, -, hret⟩
    have hk : k = log.length := by
      have hlt : k < (regLog b target).length := (List.getElem?_eq_some_iff.mp hy).1
      rw [hlog, List.length_append, List.length_singleton] at hlt
      by_contra hne
      obtain ⟨s, hs⟩ := hbefore k y (by omega) hy
      cases hs.symm.trans hret
    obtain ⟨r₁, hr₁, hreached⟩ := regLog_reached h hlevels hy
    cases hr.symm.trans hr₁
    obtain ⟨hentry, hpath⟩ := (hreached.done_iff hret).mp ⟨_, rfl⟩
    refine ⟨⟨hentry, hpath⟩, fun i r' hi hr' halike => ?_⟩
    have hi' : i < (regLog b target).length := by
      rw [hlog, List.length_append, List.length_singleton]
      omega
    have hz := List.getElem?_eq_getElem hi'
    obtain ⟨r₂, hr₂, hreached'⟩ := regLog_reached h hlevels hz
    cases hr'.symm.trans hr₂
    obtain ⟨s, hs⟩ := hbefore i _ (by omega) hz
    obtain ⟨res, hres⟩ := (hreached'.done_iff hs).mpr ⟨halike.entry, halike.path⟩
    cases hres

end Trees

/-! ## Whole paths -/

/-- What is cut off makes no difference: what `find_uart` looks for is the beginning of the whole string,
and before any node with another path of that beginning there is one with the whole string for its
path. The nodes that count have a `reg` with an entry. -/
structure ToldApart (root : Bytes) (items : Items) : Prop where
  target : items.uartTarget = items.uartString.take 256
  first : ∀ (j : ℕ) (r : Read), (treeReads root items)[j]? = some r → r.Alike items.uartTarget →
    r.path ≠ items.uartString → ∃ (i : ℕ) (r' : Read), i < j ∧
      (treeReads root items)[i]? = some r' ∧ r'.RegEntry ∧ r'.path = items.uartString

section Whole

variable {mem : Memory} {dtbPa : ℕ} {b : Blob} {root : Bytes} {items : Items} {info : UartInfo}

/-- A `stdout-path` that fits names the alias that it is to name. -/
theorem Items.uartTarget_eq_take
    (hstdout : ∀ path, items.stdoutString = some path → path.length ≤ 256) :
    items.uartTarget = items.uartString.take 256 := by
  have halias : ∀ aliasName, items.aliasCut aliasName =
      (items.aliasString aliasName).map (List.take 256) := by
    intro aliasName
    rw [aliasCut, aliasString, Option.map_map]
    rfl
  have hcut : items.stdoutCut = items.stdoutString := by
    have hmap : items.stdoutCut = items.stdoutString.map (List.take 256) := by
      rw [stdoutCut, stdoutString, Option.map_map]
      rfl
    rw [hmap]
    cases hpath : items.stdoutString with
    | none => rfl
    | some path => exact congrArg some (List.take_of_length_le (hstdout path hpath))
  unfold uartTarget uartString
  rw [halias, hcut]
  cases items.aliasString (ascii "serial0") with
  | some path => rfl
  | none =>
    cases hpath : items.stdoutString with
    | none => rfl
    | some path =>
      cases path with
      | nil => rfl
      | cons byte rest =>
        dsimp only [Option.map]
        rw [halias]
        split_ifs
        · exact (List.take_of_length_le (hstdout _ hpath)).symm
        · cases items.aliasString (byte :: rest) with
          | none => rfl
          | some path => rfl

/-- Below 256 bytes, nothing can be mistaken. -/
theorem ToldApart.of_short (hstdout : ∀ path, items.stdoutString = some path → path.length ≤ 256)
    (hshort : items.uartString.length < 256) : ToldApart root items where
  target := Items.uartTarget_eq_take hstdout
  first := by
    intro j r _ halike hne
    have hpath := halike.path
    rw [Items.uartTarget_eq_take hstdout, List.take_of_length_le hshort.le] at hpath
    have hlen := congrArg List.length hpath
    rw [List.length_take] at hlen
    rw [List.take_of_length_le (by omega)] at hpath
    exact absurd hpath hne

/-- If `find_uart` returns the `reg` of a node, the path of the node is the whole string that it goes by
exactly if what is cut off makes no difference. -/
theorem fullPath_iff (hheader : readHeader mem dtbPa = .ok (some b)) (h : Flattens b root items)
    (hlevels : items.height + 1 ≤ 32) (hfind : findUart mem dtbPa = .ok (some info)) :
    (∃ k r, ReturnsAt b items.uartTarget (treeReads root items) info k r) ∧
      ∀ k r, ReturnsAt b items.uartTarget (treeReads root items) info k r →
        (r.path = items.uartString ↔ ToldApart root items) := by
  obtain ⟨hreturns, hfirst⟩ := returnsAt_first h hlevels (findReg_of_findUart hheader h hfind)
  refine ⟨hreturns, fun k r hr => ?_⟩
  obtain ⟨halike, hbefore⟩ := hfirst k r hr
  constructor
  · intro hpath
    constructor
    · rw [← hpath, halike.path]
    · -- the walk comes to no node with such a path before it comes to the right one
      intro j r' hr' halike' hne
      have hlt : k < j := by
        rcases Nat.lt_trichotomy j k with hlt | heq | hlt
        · exact absurd halike' (hbefore j r' hlt hr')
        · rw [heq, hr.read] at hr'
          cases hr'
          exact absurd hpath hne
        · exact hlt
      exact ⟨k, r, hlt, hr.read, halike.entry, hpath⟩
  · intro htold
    by_contra hne
    obtain ⟨i, r', hi, hr', hentry, hpath'⟩ := htold.first k r hr.read halike hne
    have htake : r'.path.take 256 = items.uartTarget := by
      rw [hpath', htold.target]
    exact hbefore i r' hi hr' ⟨hentry, htake⟩

end Whole

set_option maxRecDepth 4000 in
/-- The UART on the bus is the one with the whole path. -/
theorem fullPath_iff_bus : ∃ info k r,
    findUart (Memory.holding 4096 busBlob.bytes) 4096 = .ok (some info) ∧
      ReturnsAt busBlob busTree.uartTarget (treeReads [] busTree) info k r ∧
      r.path = ascii "/soc/uart" := by
  have hheader := readHeader_holding 4096 busBlob (by decide)
  have hstring : busTree.uartString = ascii "/soc/uart" := by decide
  have hstdout : busTree.stdoutString = none := by decide
  obtain ⟨info, hinfo⟩ : ∃ info, uartInfoOf [] busTree = some info :=
    Option.isSome_iff_exists.mp (by decide)
  have hfind := findUart_info (by decide) hheader flattens_bus uartTree_bus.rangesTree
  rw [hinfo] at hfind
  obtain ⟨⟨k, r, hr⟩, hiff⟩ := fullPath_iff hheader flattens_bus (by decide) hfind
  have htold : ToldApart [] busTree :=
    .of_short (fun path hpath => absurd (hstdout.symm.trans hpath) (Option.some_ne_none path).symm)
      (by rw [hstring]; decide)
  exact ⟨info, k, r, hfind, hr, ((hiff k r hr).mpr htold).trans hstring⟩

/-! ## Two paths with the same beginning -/

/-- A node with a `reg`. -/
def regNode (name : Bytes) (addr : UInt32) (rest : Items) : Items :=
  .node name (.prop (ascii "reg") (be32 0 ++ be32 addr ++ be32 0 ++ be32 0x100) .nil) rest

/-- A path of 257 bytes as `serial0`, and before the node with that path one whose path is a byte
shorter. -/
def longTree : Items :=
  .node (ascii "aliases") (.prop (ascii "serial0") (0x2f :: List.replicate 256 0x61 ++ [0]) .nil)
    (regNode (List.replicate 255 0x61) 0x1000 (regNode (List.replicate 256 0x61) 0x2000 .nil))

/-- The names of its properties. -/
def longStrings : Bytes := ascii "serial0" ++ [0] ++ ascii "reg" ++ [0]

/-- A blob of the tree. -/
def longBlob : Blob where
  totalSize := 944
  structBlock := structBytes longStrings [] longTree
  stringsBlock := longStrings
  struct_lt := by decide +kernel
  strings_lt := by decide +kernel

/-- It is a flattening of the tree. -/
theorem flattens_long : Flattens longBlob [] longTree := flattens_structBytes rfl (by decide +kernel)

/-- The string in the buffer. -/
theorem uartTarget_long : longTree.uartTarget = 0x2f :: List.replicate 255 0x61 := by decide +kernel

/-- The whole string. -/
theorem uartString_long : longTree.uartString = 0x2f :: List.replicate 256 0x61 := by decide +kernel

/-- The search ends at the first of the two nodes. -/
theorem findReg_long : findRegIn longBlob longTree.uartTarget =
    .ok (some ⟨0x1000, 0x100, 0, 4, none, false⟩) := by
  rw [uartTarget_long, findRegIn, walk_flattens flattens_long]
  decide +kernel

/-- A node may be taken for another one whose path has the same first 256 bytes. -/
theorem not_fullPath : ¬∀ mem dtbPa b root items info, readHeader mem dtbPa = .ok (some b) →
    Flattens b root items → items.height + 1 ≤ 32 → findUart mem dtbPa = .ok (some info) →
    ∀ k r, ReturnsAt b items.uartTarget (treeReads root items) info k r →
      r.path = items.uartString := by
  intro hclaim
  have hlevels : longTree.height + 1 ≤ 32 := by decide
  have hheader := readHeader_holding 4096 longBlob (by decide +kernel)
  have hne : longTree.uartTarget ≠ [] := by
    rw [uartTarget_long]
    exact List.cons_ne_nil _ _
  have hfind : findUart (Memory.holding 4096 longBlob.bytes) 4096 = _ :=
    (findUart_flattens (by decide) hheader flattens_long).trans ((if_neg hne).trans findReg_long)
  obtain ⟨⟨k, r, hr⟩, hfirst⟩ := returnsAt_first flattens_long hlevels findReg_long
  have hpath := hclaim _ _ _ _ _ _ hheader flattens_long hlevels hfind k r hr
  obtain ⟨halike, hbefore⟩ := hfirst k r hr
  -- the first `reg` is that of the node with the shorter path
  have hread : (treeReads [] longTree)[1]?.map (fun r =>
      (r.name, r.value.length, r.place.ctx.addrCells, r.place.ctx.sizeCells, r.path)) =
      some (ascii "reg", 16, 2, 2, 0x2f :: List.replicate 255 0x61) := by decide +kernel
  obtain ⟨r', hr', hparts⟩ := Option.map_eq_some_iff.mp hread
  simp only [Prod.mk.injEq] at hparts
  obtain ⟨hname, hlen, haddr, hsize, hpath'⟩ := hparts
  have halike' : r'.Alike longTree.uartTarget := by
    constructor
    · exact ⟨hname, by rw [haddr, hsize]; decide, by rw [haddr, hsize, hlen]; decide⟩
    · rw [hpath', uartTarget_long]
      exact List.take_of_length_le (by decide +kernel)
  have hle : ¬1 < k := fun hlt => hbefore 1 r' hlt hr' halike'
  have hzero : k ≠ 0 := by
    rintro rfl
    have hfirst : (treeReads [] longTree)[0]?.map Read.name = some r.name := congrArg _ hr.read
    rw [halike.entry.name] at hfirst
    exact absurd hfirst (by decide +kernel)
  obtain rfl : k = 1 := by omega
  cases hr.read.symm.trans hr'
  rw [hpath, uartString_long] at hpath'
  exact absurd (congrArg List.length hpath') (by decide +kernel)

end Ralix.Dtb
