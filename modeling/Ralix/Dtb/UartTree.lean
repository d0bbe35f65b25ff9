import Ralix.Dtb.RegTree

/-!
# `find_uart` on device trees

What `find_uart` finds on a blob of a device tree, as a definition on the tree: the path from the
aliases and from `stdout-path`, the first node with that path, and its address through the ranges of
its ancestors. `findUart_info` puts the three walks together, for the address, the size and the settings
(`uartInfoOf`). `findUart_tree` says what the address and the size are where no node has more than four
ranges and the strings fit (`uartOf`).
-/

namespace Ralix.Dtb

open Lib

/-- The address and the size of the UART: those of the node with the path, if there is a path and it
is not empty. -/
def uartOf (root : Bytes) (items : Items) : Option (UInt64 × UInt64) :=
  match items.uartPath with
  | none => none
  | some path => if path = [] then none else regOf root items path

/-- The UART: the node with the path that `find_uart` looks for, if there is a path and it is not
empty, with the settings that come before its `reg`. -/
def uartInfoOf (root : Bytes) (items : Items) : Option UartInfo :=
  if items.uartTarget = [] then none else infoOfFour root items items.uartTarget

/-- `find_uart` looks for the path that the tree gives, if that is not empty. -/
theorem findUart_flattens {mem : Memory} {dtbPa : ℕ} {b : Blob} {root : Bytes} {items : Items}
    (hpa : dtbPa ≠ 0) (hheader : readHeader mem dtbPa = .ok (some b)) (h : Flattens b root items) :
    findUart mem dtbPa =
      if items.uartTarget = [] then .ok none else findRegIn b items.uartTarget := by
  obtain ⟨target, htarget, hholds⟩ := uartTarget_flattens hheader h
  have hlen := hholds.len_eq
  rw [findUart, if_neg hpa, htarget, Exec.ok_bind]
  by_cases hempty : items.uartTarget = []
  · have hzero : target.len = 0 := by
      rw [hlen, hempty, List.length_nil]
    rw [if_pos hzero, if_pos hempty]
    rfl
  · have hne : target.len ≠ 0 := by
      rw [hlen]
      exact fun hzero => hempty (List.eq_nil_of_length_eq_zero hzero)
    rw [if_neg hne, if_neg hempty, hholds.asSlice_eq, Exec.ok_bind, findRegByPath, hheader]
    rfl

/-- `find_uart` returns what the tree gives, through the first four ranges of each node. -/
theorem findUart_info {mem : Memory} {dtbPa : ℕ} {b : Blob} {root : Bytes} {items : Items}
    (hpa : dtbPa ≠ 0) (hheader : readHeader mem dtbPa = .ok (some b)) (h : Flattens b root items)
    (htree : RangesTree root items) : findUart mem dtbPa = .ok (uartInfoOf root items) := by
  rw [findUart_flattens hpa hheader h, uartInfoOf]
  split_ifs
  · rfl
  · exact findReg_info h htree _

/-- What a tree must be like for `find_uart` to find what is in it. -/
structure UartTree (root : Bytes) (items : Items) : Prop extends RegTree root items where
  aliases : items.UniqueLeaf (ascii "aliases")
  chosen : items.UniqueLeaf (ascii "chosen")
  aliasPaths : ∀ aliasName path, items.aliasPath aliasName = some path → path.length ≤ 256
  stdoutPath : ∀ path, items.stdoutPath = some path → path.length ≤ 256

/-- `find_uart` returns the address and the size that the tree gives, or nothing if that gives
nothing. -/
theorem findUart_tree {mem : Memory} {dtbPa : ℕ} {b : Blob} {root : Bytes} {items : Items}
    (hpa : dtbPa ≠ 0) (hheader : readHeader mem dtbPa = .ok (some b)) (h : Flattens b root items)
    (htree : UartTree root items) :
    ∃ r, findUart mem dtbPa = .ok r ∧
      r.map (fun info => (info.addr, info.size)) = uartOf root items := by
  refine ⟨_, findUart_info hpa hheader h htree.rangesTree, ?_⟩
  have htarget := items.uartTarget_eq htree.aliases htree.chosen htree.aliasPaths htree.stdoutPath
  rw [uartInfoOf, uartOf, htarget]
  cases items.uartPath with
  | none => rfl
  | some path =>
    rw [Option.getD_some]
    dsimp only
    by_cases hempty : path = []
    · rw [if_pos hempty, if_pos hempty]
      rfl
    · rw [if_neg hempty, if_neg hempty, infoOfFour_place, regOf_eq_four htree.supported]

/-! ## A tree with a bus -/

/-- A bus with a range, a UART in it, and its path as `serial0`. -/
def busTree : Items :=
  .node (ascii "aliases") (.prop (ascii "serial0") (ascii "/soc/uart" ++ [0]) .nil)
    (.node (ascii "soc")
      (.prop (ascii "#address-cells") (be32 1)
        (.prop (ascii "#size-cells") (be32 1)
          (.prop (ascii "ranges") (be32 0x7e000000 ++ be32 0 ++ be32 0x3f000000 ++ be32 0x1000000)
            (.node (ascii "uart") (.prop (ascii "reg") (be32 0x7e201000 ++ be32 0x200) .nil) .nil))))
      .nil)

/-- The names of its properties. -/
def busStrings : Bytes :=
  ascii "serial0" ++ [0] ++ ascii "#address-cells" ++ [0] ++ ascii "#size-cells" ++ [0] ++
    ascii "ranges" ++ [0] ++ ascii "reg" ++ [0]

set_option maxRecDepth 4000 in
/-- A blob of the tree. -/
def busBlob : Blob where
  totalSize := 250
  structBlock := structBytes busStrings [] busTree
  stringsBlock := busStrings
  struct_lt := by decide
  strings_lt := by decide

set_option maxRecDepth 4000 in
/-- It is a flattening of the tree. -/
theorem flattens_bus : Flattens busBlob [] busTree := flattens_structBytes rfl (by decide)

/-- The tree's one alias. -/
theorem lookup_bus (aliasName : Bytes) : busTree.lookup (ascii "aliases") aliasName =
    if ascii "serial0" = aliasName then some (ascii "/soc/uart" ++ [0]) else none := rfl

/-- The tree is as `find_uart` needs it. -/
theorem uartTree_bus : UartTree [] busTree where
  levels := by decide
  rootPath_le := by decide
  paths := by decide
  ordered := by simp [busTree, Items.Ordered, Items.NoProps]
  supported := by decide
  aliases := ⟨by decide, by decide⟩
  chosen := ⟨by decide, by decide⟩
  aliasPaths := by
    intro aliasName path hpath
    rw [Items.aliasPath, lookup_bus] at hpath
    split at hpath
    · cases hpath
      decide
    · cases hpath
  stdoutPath := by
    intro path hpath
    cases hpath

set_option maxRecDepth 4000 in
/-- `find_uart` finds the UART on the bus. -/
theorem findUart_tree_bus : ∃ info, findUart (Memory.holding 4096 busBlob.bytes) 4096 = .ok (some info) ∧
    info.addr = 0x3f201000 ∧ info.size = 0x200 := by
  obtain ⟨r, hr, hresult⟩ := findUart_tree (by decide)
    (readHeader_holding 4096 busBlob (by decide)) flattens_bus uartTree_bus
  have huart : uartOf [] busTree = some (0x3f201000, 0x200) := by decide
  rw [huart] at hresult
  obtain ⟨info, rfl, hinfo⟩ := Option.map_eq_some_iff.mp hresult
  rw [Prod.mk.injEq] at hinfo
  exact ⟨info, hr, hinfo⟩

end Ralix.Dtb
