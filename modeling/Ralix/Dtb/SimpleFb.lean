import Ralix.Dtb.Number
import Ralix.Dtb.Parse

/-!
# The frame buffer

`find_simplefb` of `src/mm/dtb.rs`: the first node to end that is a `simple-framebuffer` and has an
address, a width, a height, a stride, and a format that the kernel knows. It keeps the cell counts of
the open nodes in a stack like that of `parse`, and what it has read of each node in another. As in
`parse`, it panics at a `reg` whose cells do not fit, and nowhere else (`findSimplefb_ok_iff`).
-/

namespace Ralix.Dtb

open Lib

inductive SimpleFbFormat where
  | x8r8g8b8
  | a8r8g8b8
deriving DecidableEq, Repr

structure SimpleFbInfo where
  addr : UInt64
  size : UInt64
  width : UInt32
  height : UInt32
  stride : UInt32
  format : SimpleFbFormat
deriving DecidableEq, Repr

/-- `SimpleFbState`. -/
structure SimpleFbState where
  isSimplefb : Bool
  addr : UInt64
  size : UInt64
  width : UInt32
  height : UInt32
  stride : UInt32
  format : Option SimpleFbFormat
deriving DecidableEq, Repr

/-- What is known of a node when it begins. -/
def SimpleFbState.new : SimpleFbState := ⟨false, 0, 0, 0, 0, 0, none⟩

/-- `parse_format`. -/
def parseFormat (buf : Bytes) : Exec (Option SimpleFbFormat) := do
  let stop ← scanNul buf buf.length 0
  let s ← slice buf 0 stop
  if s = ascii "x8r8g8b8" then return some .x8r8g8b8
  else if s = ascii "a8r8g8b8" then return some .a8r8g8b8
  else return none

/-- The variables of `find_simplefb`. -/
structure SimpleFbWalk where
  stack : List NodeContext
  fbStack : List SimpleFbState
  depth : ℕ

/-- The variables before the loop. -/
def SimpleFbWalk.start : SimpleFbWalk :=
  ⟨List.replicate 32 NodeContext.root, List.replicate 32 SimpleFbState.new, 0⟩

/-- What `find_simplefb` does at `FDT_BEGIN_NODE`. -/
def simplefbBegin (s : SimpleFbWalk) : Exec SimpleFbWalk := do
  let ctx ← parentOf s.stack s.depth
  if s.depth < s.stack.length then
    let stack ← setIndex s.stack s.depth ctx
    let fbStack ← setIndex s.fbStack s.depth SimpleFbState.new
    return ⟨stack, fbStack, s.depth + 1⟩
  else return s

/-- What a node that ends is as a frame buffer, if it is one. -/
def SimpleFbState.info (fb : SimpleFbState) : Option SimpleFbInfo :=
  if fb.isSimplefb ∧ fb.addr ≠ 0 ∧ fb.width ≠ 0 ∧ fb.height ≠ 0 ∧ fb.stride ≠ 0 then
    fb.format.map fun format => ⟨fb.addr, fb.size, fb.width, fb.height, fb.stride, format⟩
  else none

/-- What `find_simplefb` does at `FDT_END_NODE`. -/
def simplefbEnd (s : SimpleFbWalk) : Exec (Iter SimpleFbWalk (Option SimpleFbInfo)) :=
  if s.depth > 0 then do
    let fb ← index s.fbStack (s.depth - 1)
    match fb.info with
    | some info => return .done (some info)
    | none => return .next { s with depth := s.depth - 1 }
  else .ok (.next s)

/-- What `find_simplefb` does at a `reg`: it reads the first entry, if there is one. -/
def simplefbReg (ctx : NodeContext) (value : Bytes) (fb : SimpleFbState) : Exec SimpleFbState :=
  let tupleCells := (ctx.addrCells + ctx.sizeCells).toNat
  if tupleCells = 0 then .ok fb
  else if value.length < tupleCells * 4 then .ok fb
  else do
    let (addr, size) ← regEntry ctx value (tupleCells * 4) 0
    return { fb with addr, size }

/-- The number of a property that is long enough for one, or what there was before. -/
def u32Or (value : Bytes) (old : UInt32) : Exec UInt32 :=
  if value.length ≥ 4 then readBeU32 value else .ok old

/-- What is known of a node after a property. -/
def SimpleFbState.prop (fb : SimpleFbState) (ctx : NodeContext) (name value : Bytes) :
    Exec SimpleFbState :=
  if name = ascii "reg" then simplefbReg ctx value fb
  else if name = ascii "compatible" then do
    let found ← valueHasString value (ascii "simple-framebuffer")
    return { fb with isSimplefb := fb.isSimplefb || found }
  else if name = ascii "width" then do
    return { fb with width := ← u32Or value fb.width }
  else if name = ascii "height" then do
    return { fb with height := ← u32Or value fb.height }
  else if name = ascii "stride" then do
    return { fb with stride := ← u32Or value fb.stride }
  else if name = ascii "format" then do
    return { fb with format := ← parseFormat value }
  else .ok fb

/-- The cell counts after a property. -/
def NodeContext.cellsProp (ctx : NodeContext) (name value : Bytes) : Exec NodeContext :=
  if name = ascii "#address-cells" then do
    return { ctx with addrCells := ← u32Or value ctx.addrCells }
  else if name = ascii "#size-cells" then do
    return { ctx with sizeCells := ← u32Or value ctx.sizeCells }
  else .ok ctx

/-- What `find_simplefb` does at `FDT_PROP`. -/
def simplefbProp (name value : Bytes) (s : SimpleFbWalk) :
    Exec (Iter SimpleFbWalk (Option SimpleFbInfo)) :=
  if s.depth = 0 then .ok (.next s)
  else do
    let ctx ← index s.stack (s.depth - 1)
    let fb ← index s.fbStack (s.depth - 1)
    let stack ← setIndex s.stack (s.depth - 1) (← ctx.cellsProp name value)
    let fbStack ← setIndex s.fbStack (s.depth - 1) (← fb.prop ctx name value)
    return .next ⟨stack, fbStack, s.depth⟩

/-- The visitor of `find_simplefb`. -/
def simplefbVisitor : Visitor SimpleFbWalk (Option SimpleFbInfo) where
  beginNode _ := simplefbBegin
  endNode := simplefbEnd
  prop := simplefbProp
  finish _ := none

/-- `find_simplefb`, for a blob. -/
def findSimplefbIn (b : Blob) : Exec (Option SimpleFbInfo) :=
  walk b simplefbVisitor SimpleFbWalk.start

/-- `find_simplefb`. -/
def findSimplefb (mem : Memory) (dtbPa : ℕ) : Exec (Option SimpleFbInfo) :=
  if dtbPa = 0 then .ok none
  else do
    match ← readHeader mem dtbPa with
    | none => return none
    | some b => findSimplefbIn b

/-! ## What a token does -/

/-- At the beginning of a node, the context around it and an empty frame buffer are pushed if there is
room. -/
theorem simplefbBegin_cases {s s' : SimpleFbWalk} (h : simplefbBegin s = .ok s') :
    ∃ ctx, parentOf s.stack s.depth = .ok ctx ∧
      (s.depth < s.stack.length ∧ s.depth < s.fbStack.length ∧
          s' = ⟨s.stack.set s.depth ctx, s.fbStack.set s.depth SimpleFbState.new, s.depth + 1⟩ ∨
        s.stack.length ≤ s.depth ∧ s' = s) := by
  obtain ⟨ctx, hctx, h⟩ := Exec.bind_eq_ok.mp h
  refine ⟨ctx, hctx, ?_⟩
  split at h
  · obtain ⟨stack, hstack, h⟩ := Exec.bind_eq_ok.mp h
    obtain ⟨fbStack, hfbStack, h⟩ := Exec.bind_eq_ok.mp h
    cases h
    obtain ⟨hlt, rfl⟩ := setIndex_eq_ok hstack
    obtain ⟨hlt', rfl⟩ := setIndex_eq_ok hfbStack
    exact .inl ⟨hlt, hlt', rfl⟩
  · rename_i hge
    cases h
    exact .inr ⟨Nat.not_lt.mp hge, rfl⟩

/-- `find_simplefb` goes on at the end of a node if the node is no frame buffer, and the depth goes
down. -/
theorem simplefbEnd_next {s s' : SimpleFbWalk} (h : simplefbEnd s = .ok (.next s')) :
    s' = ⟨s.stack, s.fbStack, s.depth - 1⟩ ∧
      (0 < s.depth → ∃ fb, index s.fbStack (s.depth - 1) = .ok fb ∧ fb.info = none) := by
  unfold simplefbEnd at h
  split at h
  · obtain ⟨fb, hfb, h⟩ := Exec.bind_eq_ok.mp h
    split at h
    · cases h
    · rename_i hnone
      cases h
      exact ⟨rfl, fun _ => ⟨fb, hfb, hnone⟩⟩
  · rename_i hzero
    cases h
    obtain ⟨stack, fbStack, depth⟩ := s
    obtain rfl : depth = 0 := Nat.eq_zero_of_not_pos hzero
    exact ⟨rfl, fun hpos => absurd hpos hzero⟩

/-- It returns at the end of a node that is a frame buffer. -/
theorem simplefbEnd_done {s : SimpleFbWalk} {r : Option SimpleFbInfo}
    (h : simplefbEnd s = .ok (.done r)) :
    0 < s.depth ∧ ∃ fb info, index s.fbStack (s.depth - 1) = .ok fb ∧ fb.info = some info ∧
      r = some info := by
  unfold simplefbEnd at h
  split at h
  · rename_i hpos
    obtain ⟨fb, hfb, h⟩ := Exec.bind_eq_ok.mp h
    split at h
    · rename_i info hinfo
      cases h
      exact ⟨hpos, fb, info, hfb, hinfo, rfl⟩
    · cases h
  · cases h

/-- At a property of an open node, its context and what is known of it change. -/
theorem simplefbProp_cases {s s' : SimpleFbWalk} {name value : Bytes}
    (h : simplefbProp name value s = .ok (.next s')) :
    s.depth = 0 ∧ s' = s ∨
      0 < s.depth ∧ ∃ ctx fb ctx' fb', index s.stack (s.depth - 1) = .ok ctx ∧
        index s.fbStack (s.depth - 1) = .ok fb ∧ ctx.cellsProp name value = .ok ctx' ∧
        fb.prop ctx name value = .ok fb' ∧
        s' = ⟨s.stack.set (s.depth - 1) ctx', s.fbStack.set (s.depth - 1) fb', s.depth⟩ := by
  unfold simplefbProp at h
  split at h
  · rename_i hzero
    cases h
    exact .inl ⟨hzero, rfl⟩
  · rename_i hne
    obtain ⟨ctx, hctx, h⟩ := Exec.bind_eq_ok.mp h
    obtain ⟨fb, hfb, h⟩ := Exec.bind_eq_ok.mp h
    obtain ⟨ctx', hctx', h⟩ := Exec.bind_eq_ok.mp h
    rw [setIndex_ok (lt_of_index hctx), Exec.ok_bind] at h
    obtain ⟨fb', hfb', h⟩ := Exec.bind_eq_ok.mp h
    rw [setIndex_ok (lt_of_index hfb)] at h
    cases h
    exact .inr ⟨Nat.pos_of_ne_zero hne, ctx, fb, ctx', fb', hctx, hfb, hctx', hfb', rfl⟩

/-! ## Safety -/

/-- The two arrays and the depth. -/
structure SimpleFbWalk.Inv (s : SimpleFbWalk) : Prop where
  length : s.stack.length = 32
  fbLength : s.fbStack.length = 32
  depth_le : s.depth ≤ 32

/-- At the start, nothing is open. -/
theorem SimpleFbWalk.inv_start : SimpleFbWalk.start.Inv := ⟨by decide, by decide, by decide⟩

/-- A number is read, if it is there. -/
theorem u32Or_eq (value : Bytes) (old : UInt32) :
    u32Or value old = .ok (if 4 ≤ value.length then word32 (value.take 4) else old) := by
  unfold u32Or
  split
  · rename_i hlen
    exact readBeU32_eq hlen
  · rfl

/-- A number is read, or not there. -/
theorem u32Or_ok (value : Bytes) (old : UInt32) : ∃ x, u32Or value old = .ok x :=
  ⟨_, u32Or_eq value old⟩

/-- `parse_format` returns. -/
theorem parseFormat_ok (buf : Bytes) : ∃ x, parseFormat buf = .ok x := by
  obtain ⟨stop, hstop, hge, hlen⟩ := scanNul_ok (Nat.zero_le buf.length)
  rw [Nat.sub_zero] at hstop
  rw [parseFormat, hstop, Exec.ok_bind, slice_ok hge hlen, Exec.ok_bind]
  split_ifs
  · exact ⟨_, rfl⟩
  · exact ⟨_, rfl⟩
  · exact ⟨_, rfl⟩

/-- The cell counts are read. -/
theorem NodeContext.cellsProp_ok (ctx : NodeContext) (name value : Bytes) :
    ∃ ctx', ctx.cellsProp name value = .ok ctx' := by
  unfold cellsProp
  split_ifs
  · obtain ⟨x, hx⟩ := u32Or_ok value ctx.addrCells
    exact ⟨_, by rw [hx]; rfl⟩
  · obtain ⟨x, hx⟩ := u32Or_ok value ctx.sizeCells
    exact ⟨_, by rw [hx]; rfl⟩
  · exact ⟨_, rfl⟩

/-- `find_simplefb` reads a `reg` exactly if its cells fit. -/
theorem simplefbReg_ok_iff (ctx : NodeContext) (value : Bytes) (fb : SimpleFbState) :
    (∃ fb', simplefbReg ctx value fb = .ok fb') ↔
      CellsFit [ctx.addrCells, ctx.sizeCells] value.length := by
  have hsum := UInt32.toNat_add ctx.addrCells ctx.sizeCells
  have hcells := cells_le_iff ctx.addrCells ctx.sizeCells
  unfold simplefbReg CellsFit
  simp only [List.map_cons, List.map_nil, List.sum_cons, List.sum_nil, Nat.add_zero, ← hsum]
  by_cases hzero : (ctx.addrCells + ctx.sizeCells).toNat = 0
  · rw [if_pos hzero]
    exact ⟨fun _ => .inr (.inl hzero), fun _ => ⟨fb, rfl⟩⟩
  rw [if_neg hzero]
  by_cases hlen : value.length < (ctx.addrCells + ctx.sizeCells).toNat * 4
  · rw [if_pos hlen]
    exact ⟨fun _ => .inr (.inr hlen), fun _ => ⟨fb, rfl⟩⟩
  rw [if_neg hlen]
  have hentry := regEntry_ok_iff ctx
    (show 0 + (ctx.addrCells + ctx.sizeCells).toNat * 4 ≤ value.length by omega)
  constructor
  · rintro ⟨fb', hfb'⟩
    obtain ⟨entry, hr, -⟩ := Exec.bind_eq_ok.mp hfb'
    have hle := hentry.mp ⟨entry, hr⟩
    omega
  · intro hfit
    obtain ⟨entry, hr⟩ := hentry.mpr (by omega)
    exact ⟨_, by rw [hr]; rfl⟩

/-- A property is read, unless it is a `reg` whose cells do not fit. -/
theorem SimpleFbState.prop_ok_iff (fb : SimpleFbState) (ctx : NodeContext) (name value : Bytes) :
    (∃ fb', fb.prop ctx name value = .ok fb') ↔
      (name = ascii "reg" → CellsFit [ctx.addrCells, ctx.sizeCells] value.length) := by
  unfold prop
  by_cases hreg : name = ascii "reg"
  · rw [if_pos hreg, simplefbReg_ok_iff]
    exact ⟨fun h _ => h, fun h => h hreg⟩
  rw [if_neg hreg]
  refine ⟨fun _ h => absurd h hreg, fun _ => ?_⟩
  split_ifs
  · obtain ⟨x, hx⟩ := valueHasStringLoop_ok value (ascii "simple-framebuffer") value.length 0
    exact ⟨_, by rw [valueHasString, hx]; rfl⟩
  · obtain ⟨x, hx⟩ := u32Or_ok value fb.width
    exact ⟨_, by rw [hx]; rfl⟩
  · obtain ⟨x, hx⟩ := u32Or_ok value fb.height
    exact ⟨_, by rw [hx]; rfl⟩
  · obtain ⟨x, hx⟩ := u32Or_ok value fb.stride
    exact ⟨_, by rw [hx]; rfl⟩
  · obtain ⟨x, hx⟩ := parseFormat_ok value
    exact ⟨_, by rw [hx]; rfl⟩
  · exact ⟨_, rfl⟩

/-- `find_simplefb` keeps its arrays in order. -/
theorem simplefbVisitor_keeps : simplefbVisitor.Keeps SimpleFbWalk.Inv where
  beginNode := by
    intro s name hs
    obtain ⟨parent, hparent⟩ := parentOf_ok (hs.depth_le.trans_eq hs.length.symm)
    show ∃ s', simplefbBegin s = .ok s' ∧ s'.Inv
    rw [simplefbBegin, hparent, Exec.ok_bind]
    split
    · rename_i hlt
      -- both stacks have 32 places, and only one of them is checked
      have hlt' : s.depth < s.fbStack.length := by rwa [hs.fbLength, ← hs.length]
      rw [setIndex_ok hlt, Exec.ok_bind, setIndex_ok hlt', Exec.ok_bind]
      refine ⟨_, rfl, ?_, ?_, ?_⟩
      · exact List.length_set.trans hs.length
      · exact List.length_set.trans hs.fbLength
      · show s.depth + 1 ≤ 32
        rw [hs.length] at hlt
        omega
    · exact ⟨s, rfl, hs⟩
  endNode := by
    intro s hs
    show ∃ i, simplefbEnd s = .ok i ∧ _
    have hok : ∃ i, simplefbEnd s = .ok i := by
      unfold simplefbEnd
      split
      · have hle := hs.depth_le
        have hlen := hs.fbLength
        rw [index_ok (by omega), Exec.ok_bind]
        split
        · exact ⟨_, rfl⟩
        · exact ⟨_, rfl⟩
      · exact ⟨_, rfl⟩
    obtain ⟨i, hi⟩ := hok
    refine ⟨i, hi, ?_⟩
    rintro s' rfl
    obtain rfl := (simplefbEnd_next hi).1
    exact ⟨hs.length, hs.fbLength, (Nat.sub_le _ _).trans hs.depth_le⟩
  prop := by
    intro s name value s' hs h
    rcases simplefbProp_cases h with ⟨-, rfl⟩ | ⟨-, ctx, fb, ctx', fb', -, -, -, -, rfl⟩
    · exact hs
    · exact ⟨List.length_set.trans hs.length, List.length_set.trans hs.fbLength, hs.depth_le⟩

/-- A `reg` whose cells fit, in the context of the node that is open. -/
def SimpleFbWalk.RegFits (s : SimpleFbWalk) (name value : Bytes) : Prop :=
  name = ascii "reg" → ∀ ctx, 0 < s.depth → s.stack[s.depth - 1]? = some ctx →
    CellsFit [ctx.addrCells, ctx.sizeCells] value.length

/-- `find_simplefb` stops at a property exactly if that is a `reg` whose cells do not fit. -/
theorem simplefbProp_ok_iff {s : SimpleFbWalk} (hs : s.Inv) (name value : Bytes) :
    (∃ i, simplefbProp name value s = .ok i) ↔ s.RegFits name value := by
  unfold simplefbProp SimpleFbWalk.RegFits
  by_cases hdepth : s.depth = 0
  · rw [if_pos hdepth]
    exact ⟨fun _ _ ctx hpos => by omega, fun _ => ⟨_, rfl⟩⟩
  have hle := hs.depth_le
  have hlt : s.depth - 1 < s.stack.length := by
    have hlen := hs.length
    omega
  have hlt' : s.depth - 1 < s.fbStack.length := by
    have hlen := hs.fbLength
    omega
  obtain ⟨ctx', hctx'⟩ := NodeContext.cellsProp_ok s.stack[s.depth - 1] name value
  have hprop := SimpleFbState.prop_ok_iff s.fbStack[s.depth - 1] s.stack[s.depth - 1] name value
  rw [if_neg hdepth, index_ok hlt, Exec.ok_bind, index_ok hlt', Exec.ok_bind, hctx', Exec.ok_bind,
    setIndex_ok hlt, Exec.ok_bind, List.getElem?_eq_getElem hlt]
  constructor
  · rintro ⟨i, hi⟩ hreg ctx - hctx
    cases hctx
    obtain ⟨fb', hfb', -⟩ := Exec.bind_eq_ok.mp hi
    exact hprop.mp ⟨fb', hfb'⟩ hreg
  · intro hfit
    obtain ⟨fb', hfb'⟩ := hprop.mpr fun hreg => hfit hreg _ (by omega) rfl
    exact ⟨_, by rw [hfb', Exec.ok_bind, setIndex_ok hlt']; rfl⟩

/-- `find_simplefb` returns for a blob exactly if the cells fit in every `reg` that it comes to. -/
theorem findSimplefbIn_ok_iff (b : Blob) : (∃ r, findSimplefbIn b = .ok r) ↔
    ∀ name value s, VisitsProp b simplefbVisitor SimpleFbWalk.start name value s →
      s.RegFits name value := by
  rw [findSimplefbIn, walk_ok_iff simplefbVisitor_keeps SimpleFbWalk.inv_start]
  refine forall₃_congr fun name value s => imp_congr_right fun hvisit => ?_
  exact simplefbProp_ok_iff (hvisit.inv simplefbVisitor_keeps SimpleFbWalk.inv_start) name value

end Ralix.Dtb
