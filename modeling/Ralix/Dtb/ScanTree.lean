import Ralix.Dtb.Safety
import Ralix.Dtb.Tree

/-!
# The path of the UART on device trees

Which path `find_uart` looks for, on a blob of a device tree. The walks for `stdout-path` and for an
alias keep a depth and a flag, and `scan_flattens` shows that they find the first property with the
name in a child of the root with the name, or below one. The strings are copied to buffers of 256 bytes
as far as there is room (`setFrom_holds`). `uartTarget_flattens` puts the two walks together, and
`Items.uartTarget_eq` says what the path is where there is one such child at most, without children of
its own, and the strings fit.
-/

namespace Ralix.Dtb

open Lib

/-! ## Properties of children of the root -/

/-- The children of a node. -/
def Items.children : Items → List (Bytes × Items)
  | .nil => []
  | .prop _ _ rest => rest.children
  | .node name items rest => (name, items) :: rest.children

/-- The first child with a name. -/
def Items.child? (name : Bytes) : Items → Option Items
  | .nil => none
  | .prop _ _ rest => rest.child? name
  | .node child items rest => if child = name then some items else rest.child? name

/-- The value of the first property with a name. -/
def Items.prop? (name : Bytes) : Items → Option Bytes
  | .nil => none
  | .prop key value rest => if key = name then some value else rest.prop? name
  | .node _ _ rest => rest.prop? name

/-- One child at most has the name, and it has no children. -/
structure Items.UniqueLeaf (items : Items) (name : Bytes) : Prop where
  unique : (items.children.map Prod.fst).count name ≤ 1
  leaf : ∀ child ∈ items.children, child.1 = name → child.2.children = []

/-- The value of a property of a child. -/
def Items.lookup (items : Items) (node prop : Bytes) : Option Bytes :=
  items.child? node >>= Items.prop? prop

/-- The value of the first property with a name in a node or below it, in document order. -/
def Items.first? (name : Bytes) : Items → Option Bytes
  | .nil => none
  | .prop key value rest => if key = name then some value else rest.first? name
  | .node _ items rest => (items.first? name).or (rest.first? name)

/-- The value of the first property with a name in a child with a name, or below one. -/
def Items.scanned (node prop : Bytes) : Items → Option Bytes
  | .nil => none
  | .prop _ _ rest => rest.scanned node prop
  | .node child items rest =>
    (if child = node then items.first? prop else none).or (rest.scanned node prop)

/-- A string in a value: up to a NUL, or up to another byte. -/
def stringOf (stop : Option UInt8) (value : Bytes) : Bytes :=
  value.takeWhile fun b => b ≠ 0 ∧ stop ≠ some b

/-- The value of an alias. -/
def Items.aliasPath (items : Items) (aliasName : Bytes) : Option Bytes :=
  (items.lookup (ascii "aliases") aliasName).map (stringOf none)

/-- `/chosen/stdout-path` up to a colon. -/
def Items.stdoutPath (items : Items) : Option Bytes :=
  (items.lookup (ascii "chosen") (ascii "stdout-path")).map (stringOf (some 0x3a))

/-- The path of the UART: that of `serial0`; or else the `stdout-path`, if it starts with a slash; or
else that of the alias that this names. -/
def Items.uartPath (items : Items) : Option Bytes :=
  match items.aliasPath (ascii "serial0") with
  | some path => some path
  | none =>
    match items.stdoutPath with
    | none => none
    | some [] => none
    | some (b :: rest) => if b = 0x2f then some (b :: rest) else items.aliasPath (b :: rest)

/-- The value of an alias as a buffer holds it: found in any child of the root with the name or below
it, and cut to 256 bytes. -/
def Items.aliasCut (items : Items) (aliasName : Bytes) : Option Bytes :=
  (items.scanned (ascii "aliases") aliasName).map fun value => (stringOf none value).take 256

/-- `stdout-path` as a buffer holds it. -/
def Items.stdoutCut (items : Items) : Option Bytes :=
  (items.scanned (ascii "chosen") (ascii "stdout-path")).map fun value =>
    (stringOf (some 0x3a) value).take 256

/-- The path of the UART as a buffer holds it, which is empty if there is none. -/
def Items.uartTarget (items : Items) : Bytes :=
  match items.aliasCut (ascii "serial0") with
  | some path => path
  | none =>
    match items.stdoutCut with
    | none => []
    | some [] => []
    | some (b :: rest) => if b = 0x2f then b :: rest else (items.aliasCut (b :: rest)).getD []

/-! ## Scans -/

section Scans

variable {node prop : Bytes}

/-- A property that is not the one looked for is passed over. -/
theorem scan_prop_miss {s : ScanState} {name value : Bytes} (h : ¬(s.inside = true ∧ name = prop)) :
    (scanVisitor node prop).prop name value s = .ok (.next s) :=
  congrArg Except.ok (if_neg h)

/-- A node that is no child of the root only counts as a level. -/
theorem scan_begin_below {s : ScanState} (hdepth : 2 ≤ s.depth) (name : Bytes) :
    (scanVisitor node prop).beginNode name s = .ok { s with depth := s.depth + 1 } :=
  congrArg Except.ok (if_neg (by omega))

/-- Nothing below a node that is no child of the root, or has another name, is looked at. -/
theorem scan_outside (items : Items) {s : ScanState} (hinside : s.inside = false) (hdepth : 2 ≤ s.depth) :
    (scanVisitor node prop).fold items s = .ok (.next s) := by
  induction items generalizing s with
  | nil => rfl
  | prop name value rest ih =>
    rw [Visitor.fold, scan_prop_miss (by simp [hinside])]
    exact ih hinside hdepth
  | node name items rest ih ih' =>
    have hend : (scanVisitor node prop).endNode { s with depth := s.depth + 1 } = .ok (.next s) := by
      show Except.ok (Iter.next (ScanState.mk _ _ _)) = _
      rw [hinside, Bool.false_and]
      show Except.ok (Iter.next (ScanState.mk s.depth false s.insideDepth)) = _
      rw [← hinside]
    rw [Visitor.fold, scan_begin_below hdepth, Exec.ok_bind,
      ih (s := { s with depth := s.depth + 1 }) hinside (Nat.le_succ_of_le hdepth)]
    show andThen ((scanVisitor node prop).endNode _) _ = _
    rw [hend]
    exact ih' hinside hdepth

/-- In a child with the name, and below it, the first property with the name is found. -/
theorem scan_inside (items : Items) {s : ScanState} (hinside : s.inside = true)
    (hdepth : s.insideDepth ≤ s.depth) (htwo : 2 ≤ s.depth) :
    (scanVisitor node prop).fold items s =
      .ok (match items.first? prop with
        | some value => .done (some value)
        | none => .next s) := by
  induction items generalizing s with
  | nil => rfl
  | prop name value rest ih =>
    rw [Visitor.fold, Items.first?]
    by_cases hname : name = prop
    · have hprop : (scanVisitor node prop).prop name value s = .ok (.done (some value)) := by
        show Except.ok (if s.inside ∧ name = prop then _ else _) = _
        rw [if_pos ⟨hinside, hname⟩]
      rw [hprop, if_pos hname]
      rfl
    · rw [scan_prop_miss fun h => hname h.2, if_neg hname]
      exact ih hinside hdepth htwo
  | node name items rest ih ih' =>
    -- A node below is deeper than the child, so the flag stays.
    have hend : (scanVisitor node prop).endNode { s with depth := s.depth + 1 } = .ok (.next s) := by
      show Except.ok (Iter.next (ScanState.mk s.depth (s.inside && decide (s.depth + 1 ≠ s.insideDepth)) _)) = _
      rw [decide_eq_true (by omega), Bool.and_true]
    rw [Visitor.fold, scan_begin_below htwo, Exec.ok_bind, Items.first?,
      ih (s := { s with depth := s.depth + 1 }) hinside (Nat.le_succ_of_le hdepth) (Nat.le_succ_of_le htwo)]
    cases items.first? prop with
    | some value => rfl
    | none =>
      show andThen ((scanVisitor node prop).endNode _) _ = _
      rw [hend]
      exact ih' hinside hdepth htwo

/-- Among the properties and children of the root. -/
theorem scan_root (items : Items) {s : ScanState} (hinside : s.inside = false) (hdepth : s.depth = 1) :
    ∃ s', (scanVisitor node prop).fold items s =
      .ok (match items.scanned node prop with
        | some value => .done (some value)
        | none => .next s') := by
  induction items generalizing s with
  | nil => exact ⟨s, rfl⟩
  | prop name value rest ih =>
    rw [Visitor.fold, scan_prop_miss (by simp [hinside])]
    exact ih hinside hdepth
  | node name items rest ih ih' =>
    -- a child of the root is left for the root, whether it was the one looked for or not
    have hend : ∀ t : ScanState, t.depth = 2 → (t.inside = false ∨ t.insideDepth = 2) →
        (scanVisitor node prop).endNode t = .ok (.next ⟨1, false, t.insideDepth⟩) := by
      intro t ht hor
      show Except.ok (Iter.next (ScanState.mk (t.depth - 1) (t.inside && t.depth ≠ t.insideDepth) _)) = _
      rcases hor with hor | hor
      · rw [ht, hor, Bool.false_and]
      · rw [ht, hor, decide_eq_false (by simp), Bool.and_false]
    rw [Visitor.fold, Items.scanned]
    by_cases hname : name = node
    · have hbegin : (scanVisitor node prop).beginNode name s = .ok ⟨2, true, 2⟩ := by
        show Except.ok (scanBegin node name s) = _
        rw [scanBegin, hdepth]
        exact congrArg _ (if_pos ⟨by omega, rfl, hname⟩)
      obtain ⟨s', hs'⟩ := ih' (s := ⟨1, false, 2⟩) rfl rfl
      refine ⟨s', ?_⟩
      rw [hbegin, Exec.ok_bind, scan_inside items rfl (Nat.le_refl 2) (Nat.le_refl 2), if_pos hname]
      cases items.first? prop with
      | some value => rfl
      | none =>
        show andThen ((scanVisitor node prop).endNode _) _ = _
        rw [hend _ rfl (.inr rfl)]
        exact hs'
    · have hbegin : (scanVisitor node prop).beginNode name s = .ok { s with depth := 2 } := by
        show Except.ok (scanBegin node name s) = _
        rw [scanBegin, hdepth]
        exact congrArg _ (if_neg fun h => hname h.2.2)
      obtain ⟨s', hs'⟩ := ih' (s := ⟨1, false, s.insideDepth⟩) rfl rfl
      refine ⟨s', ?_⟩
      rw [hbegin, Exec.ok_bind, scan_outside items (s := { s with depth := 2 }) hinside (Nat.le_refl 2),
        if_neg hname]
      show andThen ((scanVisitor node prop).endNode _) _ = _
      rw [hend ⟨2, s.inside, s.insideDepth⟩ rfl (.inl hinside)]
      exact hs'

/-- A scan of a blob of a tree finds the first property with the name in a child of the root with the
name, or below one. -/
theorem scan_flattens {b : Blob} {root : Bytes} {items : Items} (h : Flattens b root items) :
    walk b (scanVisitor node prop) ScanState.start = .ok (items.scanned node prop) := by
  have hbegin : (scanVisitor node prop).beginNode root ScanState.start = .ok ⟨1, false, 0⟩ := by
    show Except.ok (scanBegin node root ScanState.start) = _
    exact congrArg _ (if_neg fun h => absurd h.2.1 (by decide))
  obtain ⟨s', hs'⟩ : ∃ s', (scanVisitor node prop).fold items ⟨1, false, 0⟩ = _ :=
    scan_root items rfl rfl
  rw [walk_flattens h, Visitor.fold, hbegin, Exec.ok_bind, hs']
  cases items.scanned node prop with
  | some value => rfl
  | none => rfl

end Scans

/-- Without children, the first property in a node or below it is one of its own. -/
theorem Items.first?_leaf {items : Items} (hleaf : items.children = []) (name : Bytes) :
    items.first? name = items.prop? name := by
  induction items with
  | nil => rfl
  | prop key value rest ih =>
    rw [first?, prop?, ih hleaf]
  | node child items rest _ _ => cases hleaf

/-- Nothing is scanned without a child with the name. -/
theorem Items.scanned_eq_none {items : Items} {node : Bytes} (h : node ∉ items.children.map Prod.fst)
    (prop : Bytes) : items.scanned node prop = none := by
  induction items with
  | nil => rfl
  | prop key value rest ih => exact ih h
  | node child items rest _ ih =>
    rw [children, List.map_cons, List.mem_cons, not_or] at h
    rw [scanned, if_neg (fun heq => h.1 heq.symm), Option.none_or]
    exact ih h.2

/-- If the child is unique and a leaf, a scan finds its property. -/
theorem Items.UniqueLeaf.scanned_eq {items : Items} {node : Bytes} (h : items.UniqueLeaf node)
    (prop : Bytes) : items.scanned node prop = items.lookup node prop := by
  induction items with
  | nil => rfl
  | prop key value rest ih => exact ih ⟨h.unique, h.leaf⟩
  | node child items rest _ ih =>
    obtain ⟨hunique, hleaf⟩ := h
    rw [children, List.map_cons, List.count_cons] at hunique
    rw [children, List.forall_mem_cons] at hleaf
    rw [scanned, lookup, child?]
    by_cases hname : child = node
    · rw [if_pos (beq_iff_eq.mpr hname)] at hunique
      have hcount : (rest.children.map Prod.fst).count node = 0 := by omega
      rw [if_pos hname, if_pos hname, first?_leaf (hleaf.1 hname),
        scanned_eq_none (List.count_eq_zero.mp hcount), Option.or_none]
      rfl
    · rw [if_neg hname, if_neg hname, Option.none_or]
      exact ih ⟨by omega, hleaf.2⟩

/-! ## Strings in buffers -/

namespace SmallBuf

/-- The part that counts is the string. -/
structure Holds (s : SmallBuf) (bytes : Bytes) : Prop where
  inv : s.Inv
  take : s.buf.take s.len = bytes

variable {s : SmallBuf} {bytes : Bytes}

/-- Its length is that of the string. -/
theorem Holds.len_eq (h : s.Holds bytes) : s.len = bytes.length := by
  have hlen := h.inv.length
  have hle := h.inv.len_le
  rw [← h.take, List.length_take]
  omega

/-- A cleared buffer is empty. -/
theorem holds_clear (h : s.Inv) : s.clear.Holds [] := ⟨h.clear, rfl⟩

/-- A new one is. -/
theorem holds_new : new.Holds [] := ⟨inv_new, rfl⟩

/-- A byte is appended. -/
theorem push_holds (h : s.Holds bytes) (hlt : bytes.length < 256) (b : UInt8) :
    ∃ s', s.push b = .ok s' ∧ s'.Holds (bytes ++ [b]) := by
  have hlen := h.inv.length
  have hs := h.len_eq
  have hroom : s.len < s.buf.length := by omega
  refine ⟨⟨s.buf.set s.len b, s.len + 1⟩, ?_, ⟨List.length_set.trans hlen, ?_⟩, ?_⟩
  · rw [push, setIndex_ok hroom, Exec.ok_bind, Exec.pure_eq]
  · show s.len + 1 ≤ 256
    omega
  · show (s.buf.set s.len b).take (s.len + 1) = _
    rw [take_set_succ hroom, h.take]

/-- A buffer holds 256 bytes at most. -/
theorem Holds.length_le (h : s.Holds bytes) : bytes.length ≤ 256 := h.len_eq ▸ h.inv.len_le

/-- A name is appended, as far as there is room. -/
theorem pushName_cut (h : s.Holds bytes) (name : Bytes) :
    ∃ s', pushName name s = .ok s' ∧ s'.Holds ((bytes ++ name).take 256) := by
  have hle := h.length_le
  induction name generalizing s bytes with
  | nil => exact ⟨s, rfl, by rwa [List.append_nil, List.take_of_length_le hle]⟩
  | cons b rest ih =>
    have hlen := h.inv.length
    have hs := h.len_eq
    by_cases hroom : bytes.length < 256
    · obtain ⟨s', hs', hholds⟩ := push_holds h hroom b
      obtain ⟨t, ht, hholds'⟩ := ih hholds hholds.length_le
      refine ⟨t, by rw [pushName, if_neg (by omega), hs', Exec.ok_bind, ht], ?_⟩
      rwa [← List.singleton_append, ← List.append_assoc]
    · -- nothing is appended to a full buffer
      have hfull : bytes.length = 256 := by omega
      refine ⟨s, by rw [pushName, if_pos (by omega)], ?_⟩
      rwa [← hfull, List.take_left]

/-- So is the name of a node, after a slash. -/
theorem enter_cut (h : s.Holds bytes) (name : Bytes) :
    ∃ s', s.enter name = .ok s' ∧ s'.Holds ((bytes ++ 0x2f :: name).take 256) := by
  have hlen := h.inv.length
  have hle := h.length_le
  have hs := h.len_eq
  rw [enter]
  by_cases hroom : bytes.length < 256
  · obtain ⟨s', hs', hholds⟩ := push_holds h hroom 0x2f
    obtain ⟨t, ht, hholds'⟩ := pushName_cut hholds name
    refine ⟨t, by rw [if_pos (by omega), hs', Exec.ok_bind, ht], ?_⟩
    rwa [← List.singleton_append, ← List.append_assoc]
  · have hfull : bytes.length = 256 := by omega
    obtain ⟨t, ht, hholds⟩ := pushName_cut h name
    refine ⟨t, by rw [if_neg (by omega), ht], ?_⟩
    rwa [← hfull, List.take_left] at hholds ⊢

/-- A path that fits is held as it is. -/
theorem enter_holds (h : s.Holds bytes) {name : Bytes} (hle : (bytes ++ 0x2f :: name).length ≤ 256) :
    ∃ s', s.enter name = .ok s' ∧ s'.Holds (bytes ++ 0x2f :: name) := by
  have hcut := enter_cut h name
  rwa [List.take_of_length_le hle] at hcut

/-- A string is copied up to its end, as far as there is room. -/
theorem setFromLoop_holds (h : s.Holds bytes) (stop : Option UInt8) (src : Bytes) :
    ∃ s', setFromLoop stop src s = .ok s' ∧ s'.Holds ((bytes ++ stringOf stop src).take 256) := by
  induction src generalizing s bytes with
  | nil =>
    have hle := h.inv.len_le
    have hs := h.len_eq
    exact ⟨s, rfl, by rwa [stringOf, List.takeWhile_nil, List.append_nil,
      List.take_of_length_le (by omega)]⟩
  | cons b rest ih =>
    have hlen := h.inv.length
    have hle := h.inv.len_le
    have hs := h.len_eq
    by_cases hb : b ≠ 0 ∧ stop ≠ some b
    · have hstring : stringOf stop (b :: rest) = b :: stringOf stop rest :=
        List.takeWhile_cons_of_pos (by simpa using hb)
      -- a full buffer ends the copy, so what does not fit is cut off
      by_cases hroom : bytes.length < 256
      · obtain ⟨s', hs', hholds⟩ := push_holds h hroom b
        obtain ⟨t, ht, hholds'⟩ := ih hholds
        refine ⟨t, ?_, ?_⟩
        · rw [setFromLoop, if_neg (by rw [not_or, not_or]; exact ⟨hb.1, hb.2, by omega⟩), hs',
            Exec.ok_bind, ht]
        · rwa [hstring, ← List.singleton_append, ← List.append_assoc]
      · have hfull : bytes.length = 256 := by omega
        refine ⟨s, by rw [setFromLoop, if_pos (.inr (.inr (by omega)))], ?_⟩
        rwa [← hfull, List.take_left]
    · have hstring : stringOf stop (b :: rest) = [] :=
        List.takeWhile_cons_of_neg (by simpa using hb)
      refine ⟨s, ?_, by rwa [hstring, List.append_nil, List.take_of_length_le (by omega)]⟩
      rw [setFromLoop, if_pos]
      by_cases hzero : b = 0
      · exact .inl hzero
      · exact .inr (.inl (not_not.mp fun h => hb ⟨hzero, h⟩))

/-- `set_from` copies a string, as far as there is room. -/
theorem setFrom_holds (h : s.Inv) (stop : Option UInt8) (src : Bytes) :
    ∃ s', s.setFrom src stop = .ok s' ∧ s'.Holds ((stringOf stop src).take 256) :=
  setFromLoop_holds (holds_clear h) stop src

/-- `as_slice` is the string. -/
theorem Holds.asSlice_eq (h : s.Holds bytes) : s.asSlice = .ok bytes := by
  rw [asSlice_ok h.inv, h.take]

end SmallBuf

/-! ## The path -/

section Target

variable {mem : Memory} {dtbPa : ℕ} {b : Blob} {root : Bytes} {items : Items} {out : SmallBuf}

/-- `read_alias_path` on a blob of a tree. -/
theorem readAliasPath_flattens (hheader : readHeader mem dtbPa = .ok (some b)) (h : Flattens b root items)
    (aliasName : Bytes) (hout : out.Inv) :
    ∃ out', readAliasPath mem dtbPa aliasName out = .ok ((items.aliasCut aliasName).isSome, out') ∧
      out'.Holds ((items.aliasCut aliasName).getD []) := by
  have hscan : readAliasPathIn b aliasName = .ok (items.scanned (ascii "aliases") aliasName) :=
    scan_flattens h
  rw [readAliasPath, hheader, Exec.ok_bind, Items.aliasCut]
  dsimp only
  rw [hscan, Exec.ok_bind]
  cases items.scanned (ascii "aliases") aliasName with
  | none => exact ⟨_, rfl, SmallBuf.holds_clear hout⟩
  | some value =>
    obtain ⟨out', hset, hholds⟩ := SmallBuf.setFrom_holds hout.clear none value
    exact ⟨out', by dsimp only; rw [hset]; rfl, hholds⟩

/-- `scan_stdout_path` on a blob of a tree. -/
theorem scanStdoutPath_flattens (hheader : readHeader mem dtbPa = .ok (some b)) (h : Flattens b root items)
    (hout : out.Inv) : ∃ out', scanStdoutPath mem dtbPa out = .ok out' ∧
      out'.Holds (items.stdoutCut.getD []) := by
  have hscan : scanStdoutPathIn b = .ok (items.scanned (ascii "chosen") (ascii "stdout-path")) :=
    scan_flattens h
  rw [scanStdoutPath, hheader, Exec.ok_bind, Items.stdoutCut]
  dsimp only
  rw [hscan, Exec.ok_bind]
  cases items.scanned (ascii "chosen") (ascii "stdout-path") with
  | none => exact ⟨_, rfl, SmallBuf.holds_clear hout⟩
  | some value => exact SmallBuf.setFrom_holds hout.clear (some 0x3a) value

/-- The first byte of a string in a buffer. -/
theorem SmallBuf.Holds.index_zero {s : SmallBuf} {byte : UInt8} {rest : Bytes}
    (h : s.Holds (byte :: rest)) : index s.buf 0 = .ok byte := by
  have htake := h.take
  have hlen := h.len_eq
  rw [List.length_cons] at hlen
  match hbuf : s.buf with
  | [] => rw [hbuf, List.take_nil] at htake; cases htake
  | x :: xs =>
    rw [hbuf, hlen, List.take_succ_cons, List.cons.injEq] at htake
    rw [← htake.1]
    rfl

/-- `find_uart` looks for the path that the tree gives. -/
theorem uartTarget_flattens (hheader : readHeader mem dtbPa = .ok (some b)) (h : Flattens b root items) :
    ∃ target, uartTarget mem dtbPa = .ok target ∧ target.Holds items.uartTarget := by
  obtain ⟨stdout, hscan, hholds⟩ := scanStdoutPath_flattens hheader h SmallBuf.inv_new
  obtain ⟨serial, hserial, hserialHolds⟩ :=
    readAliasPath_flattens hheader h (ascii "serial0") SmallBuf.inv_new
  rw [uartTarget, hscan, Exec.ok_bind, hserial, Exec.ok_bind, Items.uartTarget]
  cases hpath : items.aliasCut (ascii "serial0") with
  | some path =>
    rw [hpath] at hserialHolds
    exact ⟨serial, rfl, hserialHolds⟩
  | none =>
    rw [hpath] at hserialHolds
    have hlen := hholds.len_eq
    have hserialLen : serial.len = 0 := hserialHolds.len_eq
    dsimp only [Option.isSome]
    rw [if_neg Bool.false_ne_true]
    cases hout : items.stdoutCut with
    | none =>
      rw [hout] at hlen
      have hzero : ¬stdout.len ≠ 0 := not_not.mpr hlen
      rw [if_neg hzero]
      exact ⟨serial, rfl, hserialHolds⟩
    | some path =>
      rw [hout, Option.getD_some] at hlen hholds
      cases path with
      | nil =>
        have hzero : ¬stdout.len ≠ 0 := not_not.mpr hlen
        rw [if_neg hzero]
        exact ⟨serial, rfl, hserialHolds⟩
      | cons byte rest =>
        -- a path goes as it is; anything else is the name of an alias
        rw [List.length_cons] at hlen
        have hne : stdout.len ≠ 0 := by omega
        rw [if_pos hne, hholds.index_zero, Exec.ok_bind]
        dsimp only
        by_cases hslash : byte = 0x2f
        · rw [if_pos hslash, if_pos hslash]
          exact ⟨stdout, rfl, hholds⟩
        · obtain ⟨target, htarget, htargetHolds⟩ :=
            readAliasPath_flattens hheader h (byte :: rest) hserialHolds.inv
          rw [if_neg hslash, if_neg hslash, if_pos hserialLen, hholds.asSlice_eq, Exec.ok_bind,
            htarget]
          exact ⟨target, rfl, htargetHolds⟩

/-- Where `/aliases` and `/chosen` are unique leaves and their strings fit, the path in the buffer is
that of the tree. -/
theorem Items.uartTarget_eq (haliases : items.UniqueLeaf (ascii "aliases"))
    (hchosen : items.UniqueLeaf (ascii "chosen"))
    (halias : ∀ aliasName path, items.aliasPath aliasName = some path → path.length ≤ 256)
    (hstdout : ∀ path, items.stdoutPath = some path → path.length ≤ 256) :
    items.uartTarget = items.uartPath.getD [] := by
  have hcut : ∀ (stop : Option UInt8) (value : Option Bytes),
      (∀ path, value.map (stringOf stop) = some path → path.length ≤ 256) →
        (value.map fun v => (stringOf stop v).take 256) = value.map (stringOf stop) := by
    intro stop value hle
    cases value with
    | none => rfl
    | some v => exact congrArg some (List.take_of_length_le (hle _ rfl))
  have haliasCut : ∀ aliasName, items.aliasCut aliasName = items.aliasPath aliasName := by
    intro aliasName
    rw [aliasCut, haliases.scanned_eq]
    exact hcut _ _ (halias aliasName)
  have hstdoutCut : items.stdoutCut = items.stdoutPath := by
    rw [stdoutCut, hchosen.scanned_eq]
    exact hcut _ _ hstdout
  unfold uartTarget uartPath
  simp only [haliasCut, hstdoutCut]
  cases items.aliasPath (ascii "serial0") with
  | some path => rfl
  | none =>
    cases items.stdoutPath with
    | none => rfl
    | some path =>
      cases path with
      | nil => rfl
      | cons byte rest =>
        dsimp only
        split_ifs
        · rfl
        · rfl

end Target

end Ralix.Dtb
