import Ralix.Dtb.RegTree

/-!
# The ranges of a bus

What `find_reg_by_path` does with a `ranges` of any length. A node of the walk has room for four ranges,
and the loop over a `ranges` ends where that is full. So an address goes through the first of the first
four entries that contains it (`findReg_ranges`), and a device in a later range is not found, although
the tree has it (`not_findReg_all`).
-/

namespace Ralix.Dtb

open Lib

/-! ## Where the translation ends -/

/-- A range contains an address. A range that would end after the last address ends at it. -/
def Range.Contains (r : Range) (addr : UInt64) : Prop :=
  r.childBase ≤ addr ∧ addr < saturatingAdd r.childBase r.size

/-- On its way through ranges, from the inside out, an address comes to some of which none contains
it. -/
def Blocked : List (List Range) → UInt64 → Prop
  | [], _ => False
  | ranges :: outer, addr => (ranges ≠ [] ∧ ∀ r ∈ ranges, ¬r.Contains addr) ∨
    ∃ next, throughRanges ranges addr = some next ∧ Blocked outer next

/-- A range translates what it contains. -/
theorem Range.map_eq_none_iff (r : Range) (addr : UInt64) : r.map addr = none ↔ ¬r.Contains addr := by
  unfold map
  split
  · rename_i hcontains
    exact ⟨nofun, fun hnot => absurd hcontains hnot⟩
  · rename_i hnot
    exact ⟨fun _ => hnot, fun _ => rfl⟩

/-- The ranges of one node translate an address unless none of them contains it. -/
theorem throughRanges_eq_none_iff (ranges : List Range) (addr : UInt64) :
    throughRanges ranges addr = none ↔ ranges ≠ [] ∧ ∀ r ∈ ranges, ¬r.Contains addr := by
  unfold throughRanges
  split
  · rename_i hnil
    exact ⟨nofun, fun h => absurd hnil h.1⟩
  · rename_i hne
    simp only [List.findSome?_eq_none_iff, Range.map_eq_none_iff, ne_eq, hne, not_false_eq_true, true_and]

/-- The translation fails exactly if it is blocked on the way. -/
theorem throughAll_eq_none_iff (outer : List (List Range)) (addr : UInt64) :
    throughAll outer addr = none ↔ Blocked outer addr := by
  induction outer generalizing addr with
  | nil => exact ⟨nofun, False.elim⟩
  | cons ranges outer ih =>
    rw [throughAll, Blocked, ← throughRanges_eq_none_iff]
    cases throughRanges ranges addr with
    | none => exact ⟨fun _ => .inl rfl, fun _ => rfl⟩
    | some next =>
      rw [Option.bind_eq_bind, Option.bind_some, ih]
      constructor
      · exact fun hblocked => .inr ⟨next, rfl, hblocked⟩
      · rintro (hnone | ⟨next', hnext, hblocked⟩)
        · cases hnone
        · cases hnext
          exact hblocked

/-! ## A bus with five ranges -/

/-- Five ranges of a page each. -/
def fiveRanges : Bytes :=
  (List.range 5).flatMap fun i => be32 (0x1000 * i.toUInt32) ++ be32 0 ++
    be32 (0x3f000000 + 0x1000 * i.toUInt32) ++ be32 0x1000

/-- A bus with the five ranges, and a device in each of the last two. -/
def fiveTree : Items :=
  .node (ascii "soc")
    (.prop (ascii "#address-cells") (be32 1)
      (.prop (ascii "#size-cells") (be32 1)
        (.prop (ascii "ranges") fiveRanges
          (.node (ascii "uart@3200") (.prop (ascii "reg") (be32 0x3200 ++ be32 0x200) .nil)
            (.node (ascii "uart@4200") (.prop (ascii "reg") (be32 0x4200 ++ be32 0x200) .nil) .nil)))))
    .nil

/-- The names of its properties. -/
def fiveStrings : Bytes :=
  ascii "#address-cells" ++ [0] ++ ascii "#size-cells" ++ [0] ++ ascii "ranges" ++ [0] ++
    ascii "reg" ++ [0]

set_option maxRecDepth 8000 in
/-- A blob of the tree. -/
def fiveBlob : Blob where
  totalSize := 400
  structBlock := structBytes fiveStrings [] fiveTree
  stringsBlock := fiveStrings
  struct_lt := by decide
  strings_lt := by decide

set_option maxRecDepth 8000 in
/-- It is a flattening of the tree. -/
theorem flattens_five : Flattens fiveBlob [] fiveTree := flattens_structBytes rfl (by decide)

/-- The tree is as the walk needs it. -/
theorem rangesTree_five : RangesTree [] fiveTree where
  levels := by decide
  rootPath_le := by decide
  paths := by decide
  ordered := by simp [fiveTree, Items.Ordered, Items.NoProps]
  noOverflow := by
    have hsum : ∀ p ∈ uartProps [] fiveTree, p.node.addrCells.toNat + p.parentCells.toNat +
        p.node.sizeCells.toNat < 2^32 := by decide
    intro p hp
    have hlt := hsum p hp
    exact ⟨fun _ => by omega, fun _ => hlt⟩

/-! ## The addresses -/

/-- `find_reg_by_path` returns the address that the first four ranges of each node give. Where no fixup
applies, it finds no address for a node exactly if the way through those ranges is blocked. -/
theorem findReg_ranges {b : Blob} {root : Bytes} {items : Items} (h : Flattens b root items)
    (htree : RangesTree root items) (target : Bytes) :
    ∃ r, findRegIn b target = .ok r ∧
      r.map (fun info => (info.addr, info.size)) = regOfFour root items target ∧
      ∀ p addr size, (uartProps root items).find? (fun p => p.Hit target) = some p →
        p.first? = some (addr, size) → ¬rp1Prefix <+: p.path →
          (r = none ↔ Blocked (p.outer.map (List.take 4)) addr) := by
  obtain ⟨r, hr, hresult⟩ := findReg_four h htree target
  refine ⟨r, hr, hresult, fun p addr size hp hfirst hrp1 => ?_⟩
  have hphys : p.cut.phys addr = throughAll (p.outer.map (List.take 4)) addr := if_neg hrp1
  have hcut : p.cut.result = p.cut.phys addr >>= fun phys => some (phys, size) := by
    have hfirst' : p.cut.first? = some (addr, size) := hfirst
    rw [UartProp.result, hfirst']
    rfl
  have hfour : regOfFour root items target = p.cut.result := by
    rw [regOfFour, hp]
    rfl
  rw [← throughAll_eq_none_iff, ← hphys, ← Option.map_eq_none_iff, hresult, hfour, hcut]
  cases p.cut.phys addr with
  | none => exact ⟨fun _ => rfl, fun _ => rfl⟩
  | some phys =>
    constructor
    · intro hnone
      cases hnone
    · intro hnone
      cases hnone

/-- The device in the fourth range is found. -/
theorem findReg_ranges_fourth : ∃ info, findRegIn fiveBlob (ascii "/soc/uart@3200") = .ok (some info) ∧
    info.addr = 0x3f003200 ∧ info.size = 0x200 := by
  obtain ⟨r, hr, hresult, -⟩ := findReg_ranges flattens_five rangesTree_five (ascii "/soc/uart@3200")
  have hfour : regOfFour [] fiveTree (ascii "/soc/uart@3200") = some (0x3f003200, 0x200) := by decide
  rw [hfour] at hresult
  obtain ⟨info, rfl, hinfo⟩ := Option.map_eq_some_iff.mp hresult
  rw [Prod.mk.injEq] at hinfo
  exact ⟨info, hr, hinfo⟩

/-- The address is not always the one that all ranges of each node give. -/
theorem not_findReg_all : ¬∀ b root items, Flattens b root items → RangesTree root items → ∀ target,
    ∃ r, findRegIn b target = .ok r ∧
      r.map (fun info => (info.addr, info.size)) = regOf root items target := by
  intro h
  obtain ⟨r, hr, hresult⟩ := h _ _ _ flattens_five rangesTree_five (ascii "/soc/uart@4200")
  obtain ⟨r', hr', hresult'⟩ := findReg_four flattens_five rangesTree_five (ascii "/soc/uart@4200")
  rw [hr] at hr'
  cases hr'
  have hall : regOf [] fiveTree (ascii "/soc/uart@4200") = some (0x3f004200, 0x200) := by decide
  have hfour : regOfFour [] fiveTree (ascii "/soc/uart@4200") = none := by decide
  rw [hresult, hall, hfour] at hresult'
  cases hresult'

end Ralix.Dtb
