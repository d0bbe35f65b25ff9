import Ralix.Dtb.Walker
import Ralix.Mm.Region

/-!
# Memory and reserved ranges

`parse` of `src/mm/dtb.rs`. It keeps a context for each open node, in an array of 32, and calls
`add_region` for the entries of `reg` properties, as usable memory or as reserved. It never reads the
map, so its calls are recorded here, and the map after it is `MemoryMap.addAll`. The cell counts of a
context are 32-bit numbers from the blob, and their sum wraps. `parse_ok_iff` says that this is the
one way in which `parse` panics: where the sum has wrapped and is not zero, the slices of the first
entry of a `reg` that is long enough do not fit together.
-/

namespace Ralix.Dtb

open Lib Mm MemoryMap

/-- `NodeContext`. -/
structure NodeContext where
  addrCells : UInt32
  sizeCells : UInt32
  inReserved : Bool
  isMemory : Bool
deriving DecidableEq, Repr

/-- The context in which the root node begins. -/
def NodeContext.root : NodeContext := ⟨2, 2, false, false⟩

/-- The variables of `parse`: the stack of contexts, its depth, and the calls of `add_region` so
far. -/
structure ParseState where
  stack : List NodeContext
  depth : ℕ
  calls : List Call

/-- The variables before the loop. -/
def ParseState.start : ParseState := ⟨List.replicate 32 NodeContext.root, 0, []⟩

/-- The context of a node that begins in a context. -/
def NodeContext.enter (parent : NodeContext) (name : Bytes) : Exec NodeContext := do
  let reserved ← nameStartsWith name (ascii "reserved-memory")
  let memory ← nameStartsWith name (ascii "memory")
  return { parent with
    inReserved := parent.inReserved || reserved
    isMemory := parent.isMemory || memory }

/-- The context of the innermost open node, or that of the root. -/
def parentOf (stack : List NodeContext) (depth : ℕ) : Exec NodeContext :=
  if depth = 0 then .ok NodeContext.root else index stack (depth - 1)

/-- What `parse` does at `FDT_BEGIN_NODE`. A node past the 32 levels is not entered. -/
def parseBegin (name : Bytes) (s : ParseState) : Exec ParseState := do
  let parent ← parentOf s.stack s.depth
  let ctx ← parent.enter name
  if s.depth < s.stack.length then
    let stack ← setIndex s.stack s.depth ctx
    return { s with stack, depth := s.depth + 1 }
  else return s

/-- What `parse` does at `FDT_END_NODE`. -/
def parseEnd (s : ParseState) : ParseState := if s.depth > 0 then { s with depth := s.depth - 1 } else s

/-- The call for an entry of a `reg` in a context. -/
def NodeContext.call (ctx : NodeContext) (addr size : UInt64) : List Call :=
  if ctx.isMemory then [⟨addr, size, .usableRam⟩]
  else if ctx.inReserved then [⟨addr, size, .reserved⟩]
  else []

/-- The address and the size of the entry of a `reg` at `pos`. -/
def regEntry (ctx : NodeContext) (value : Bytes) (entryBytes pos : ℕ) : Exec (UInt64 × UInt64) := do
  let addr ← readCells (← slice value pos (pos + ctx.addrCells.toNat * 4)) ctx.addrCells
  let size ← readCells (← slice value (pos + ctx.addrCells.toNat * 4) (pos + entryBytes)) ctx.sizeCells
  return (addr, size)

/-- The loop over the entries of a `reg` from `pos`, with at most `n` bytes left. -/
def regLoop (ctx : NodeContext) (value : Bytes) (entryBytes : ℕ) :
    ℕ → ℕ → List Call → Exec (List Call)
  | 0, _, calls => .ok calls
  | n + 1, pos, calls =>
    if pos + entryBytes ≤ value.length then do
      let (addr, size) ← regEntry ctx value entryBytes pos
      regLoop ctx value entryBytes n (pos + entryBytes) (calls ++ ctx.call addr size)
    else .ok calls

/-- What `parse` does at a `reg`. -/
def parseReg (ctx : NodeContext) (value : Bytes) (calls : List Call) : Exec (List Call) :=
  let tupleCells := (ctx.addrCells + ctx.sizeCells).toNat
  if tupleCells = 0 then .ok calls
  else regLoop ctx value (tupleCells * 4) value.length 0 calls

/-- The context after a property. -/
def NodeContext.prop (ctx : NodeContext) (name value : Bytes) : Exec NodeContext :=
  if name = ascii "#address-cells" then
    if value.length ≥ 4 then do
      return { ctx with addrCells := ← readBeU32 value }
    else .ok ctx
  else if name = ascii "#size-cells" then
    if value.length ≥ 4 then do
      return { ctx with sizeCells := ← readBeU32 value }
    else .ok ctx
  else if name = ascii "device_type" then do
    let memory ← nameStartsWith value (ascii "memory")
    return { ctx with isMemory := ctx.isMemory || memory }
  else .ok ctx

/-- What `parse` does at `FDT_PROP`. -/
def parseProp (name value : Bytes) (s : ParseState) : Exec (Iter ParseState (List Call)) :=
  if s.depth = 0 then .ok (.next s)
  else do
    let ctx ← index s.stack (s.depth - 1)
    if name = ascii "reg" then
      let calls ← parseReg ctx value s.calls
      return .next { s with calls }
    else
      let stack ← setIndex s.stack (s.depth - 1) (← ctx.prop name value)
      return .next { s with stack }

/-- The visitor of `parse`. -/
def parseVisitor : Visitor ParseState (List Call) where
  beginNode := parseBegin
  endNode s := .ok (.next (parseEnd s))
  prop := parseProp
  finish := ParseState.calls

/-- The calls of `add_region` that `parse` makes for a blob. -/
def parseCalls (b : Blob) : Exec (List Call) := walk b parseVisitor ParseState.start

/-- `parse`. -/
def parse (mem : Memory) (dtbPa : ℕ) (map : MemoryMap) : Exec (Option DtbInfo × MemoryMap) :=
  if dtbPa = 0 then .ok (none, map)
  else do
    match ← readHeader mem dtbPa with
    | none => return (none, map)
    | some b =>
      let calls ← parseCalls b
      return (some ⟨b.totalSize⟩, map.addAll calls)

/-! ## What a token does -/

/-- At the beginning of a node, its context is pushed if there is room. -/
theorem parseBegin_cases {s s' : ParseState} {name : Bytes} (h : parseBegin name s = .ok s') :
    ∃ parent ctx, parentOf s.stack s.depth = .ok parent ∧ parent.enter name = .ok ctx ∧
      (s.depth < s.stack.length ∧ s' = ⟨s.stack.set s.depth ctx, s.depth + 1, s.calls⟩ ∨
        s.stack.length ≤ s.depth ∧ s' = s) := by
  obtain ⟨parent, hparent, h⟩ := Exec.bind_eq_ok.mp h
  obtain ⟨ctx, hctx, h⟩ := Exec.bind_eq_ok.mp h
  refine ⟨parent, ctx, hparent, hctx, ?_⟩
  split at h
  · rename_i hlt
    rw [setIndex_ok hlt] at h
    cases h
    exact .inl ⟨hlt, rfl⟩
  · rename_i hge
    cases h
    exact .inr ⟨Nat.not_lt.mp hge, rfl⟩

/-- No call is made there. -/
theorem parseBegin_calls {s s' : ParseState} {name : Bytes} (h : parseBegin name s = .ok s') :
    s'.calls = s.calls := by
  obtain ⟨-, -, -, -, ⟨-, rfl⟩ | ⟨-, rfl⟩⟩ := parseBegin_cases h
  · rfl
  · rfl

/-- At the end of a node, the depth goes down. -/
theorem parseEnd_eq (s : ParseState) : parseEnd s = ⟨s.stack, s.depth - 1, s.calls⟩ := by
  unfold parseEnd
  split
  · rfl
  · rename_i hzero
    obtain ⟨stack, depth, calls⟩ := s
    obtain rfl : depth = 0 := Nat.eq_zero_of_not_pos hzero
    rfl

/-- At a property, `parse` goes on. In an open node, a `reg` adds calls, and any other property changes
the node's context. -/
theorem parseProp_cases {s : ParseState} {name value : Bytes} {i : Iter ParseState (List Call)}
    (h : parseProp name value s = .ok i) :
    ∃ s', i = .next s' ∧ (s.depth = 0 ∧ s' = s ∨
      0 < s.depth ∧ ∃ ctx, index s.stack (s.depth - 1) = .ok ctx ∧
        (name = ascii "reg" ∧
            (∃ calls, parseReg ctx value s.calls = .ok calls ∧ s' = ⟨s.stack, s.depth, calls⟩) ∨
          name ≠ ascii "reg" ∧ ∃ ctx', ctx.prop name value = .ok ctx' ∧
            s' = ⟨s.stack.set (s.depth - 1) ctx', s.depth, s.calls⟩)) := by
  unfold parseProp at h
  split at h
  · rename_i hzero
    cases h
    exact ⟨s, rfl, .inl ⟨hzero, rfl⟩⟩
  · rename_i hne
    obtain ⟨ctx, hctx, h⟩ := Exec.bind_eq_ok.mp h
    split at h
    · rename_i hreg
      obtain ⟨calls, hcalls, h⟩ := Exec.bind_eq_ok.mp h
      cases h
      exact ⟨_, rfl, .inr ⟨Nat.pos_of_ne_zero hne, ctx, hctx, .inl ⟨hreg, calls, hcalls, rfl⟩⟩⟩
    · rename_i hreg
      obtain ⟨ctx', hctx', h⟩ := Exec.bind_eq_ok.mp h
      rw [setIndex_ok (lt_of_index hctx)] at h
      cases h
      exact ⟨_, rfl, .inr ⟨Nat.pos_of_ne_zero hne, ctx, hctx, .inr ⟨hreg, ctx', hctx', rfl⟩⟩⟩

/-! ## Safety -/

/-- The array of contexts and the depth. -/
structure ParseState.Inv (s : ParseState) : Prop where
  length : s.stack.length = 32
  depth_le : s.depth ≤ 32

/-- At the start, nothing is open. -/
theorem ParseState.inv_start : ParseState.start.Inv := ⟨by decide, by decide⟩

/-- A node's context is computed. -/
theorem NodeContext.enter_eq (parent : NodeContext) (name : Bytes) : parent.enter name =
    .ok { parent with
      inReserved := parent.inReserved || (ascii "reserved-memory").isPrefixOf name
      isMemory := parent.isMemory || (ascii "memory").isPrefixOf name } := by
  rw [enter, nameStartsWith_eq, Exec.ok_bind, nameStartsWith_eq, Exec.ok_bind, Exec.pure_eq]

/-- A context after a property is computed. -/
theorem NodeContext.prop_ok (ctx : NodeContext) (name value : Bytes) :
    ∃ ctx', ctx.prop name value = .ok ctx' := by
  unfold prop
  split_ifs with haddr hlen hsize hlen htype
  · obtain ⟨x, hx⟩ := readBeU32_ok hlen
    exact ⟨_, by rw [hx]; rfl⟩
  · exact ⟨_, rfl⟩
  · obtain ⟨x, hx⟩ := readBeU32_ok hlen
    exact ⟨_, by rw [hx]; rfl⟩
  · exact ⟨_, rfl⟩
  · exact ⟨_, by rw [nameStartsWith_eq]; rfl⟩
  · exact ⟨_, rfl⟩

/-- The context of the parent is in the array. -/
theorem parentOf_ok {stack : List NodeContext} {depth : ℕ} (h : depth ≤ stack.length) :
    ∃ parent, parentOf stack depth = .ok parent := by
  unfold parentOf
  split
  · exact ⟨_, rfl⟩
  · exact ⟨_, index_ok (by omega)⟩

/-- The entry of a `reg` is read exactly if the slices for its address and its size fit together. -/
theorem regEntry_ok_iff (ctx : NodeContext) {value : Bytes} {entryBytes pos : ℕ}
    (h : pos + entryBytes ≤ value.length) :
    (∃ r, regEntry ctx value entryBytes pos = .ok r) ↔ ctx.addrCells.toNat * 4 ≤ entryBytes := by
  unfold regEntry
  by_cases hfit : ctx.addrCells.toNat * 4 ≤ entryBytes
  · rw [slice_ok (by omega) (by omega), Exec.ok_bind]
    obtain ⟨addr, haddr⟩ := readCells_ok
      ((value.drop pos).take (pos + ctx.addrCells.toNat * 4 - pos)) ctx.addrCells
    rw [haddr, Exec.ok_bind, slice_ok (by omega) h, Exec.ok_bind]
    obtain ⟨size, hsize⟩ := readCells_ok ((value.drop (pos + ctx.addrCells.toNat * 4)).take
      (pos + entryBytes - (pos + ctx.addrCells.toNat * 4))) ctx.sizeCells
    rw [hsize]
    exact ⟨fun _ => hfit, fun _ => ⟨_, rfl⟩⟩
  · refine ⟨?_, fun hle => absurd hle hfit⟩
    rintro ⟨r, hr⟩
    obtain ⟨buf, -, hr⟩ := Exec.bind_eq_ok.mp hr
    obtain ⟨addr, -, hr⟩ := Exec.bind_eq_ok.mp hr
    obtain ⟨buf', hbuf', -⟩ := Exec.bind_eq_ok.mp hr
    obtain ⟨hle, -⟩ := slice_eq_ok hbuf'
    omega

/-- The loop over the entries returns exactly if there is no entry or the slices fit together. -/
theorem regLoop_ok_iff (ctx : NodeContext) (value : Bytes) {entryBytes : ℕ} (n pos : ℕ)
    (calls : List Call) (hn : value.length ≤ pos + n) (hpos : 0 < entryBytes) :
    (∃ r, regLoop ctx value entryBytes n pos calls = .ok r) ↔
      (pos + entryBytes ≤ value.length → ctx.addrCells.toNat * 4 ≤ entryBytes) := by
  induction n generalizing pos calls with
  | zero => exact ⟨fun _ h => by omega, fun _ => ⟨calls, rfl⟩⟩
  | succ n ih =>
    rw [regLoop]
    by_cases hle : pos + entryBytes ≤ value.length
    · rw [if_pos hle]
      constructor
      · rintro ⟨r, hr⟩ -
        obtain ⟨entry, hentry, -⟩ := Exec.bind_eq_ok.mp hr
        exact (regEntry_ok_iff ctx hle).mp ⟨entry, hentry⟩
      · intro hfit
        obtain ⟨⟨addr, size⟩, hentry⟩ := (regEntry_ok_iff ctx hle).mpr (hfit hle)
        rw [hentry, Exec.ok_bind]
        exact (ih _ _ (by omega)).mpr fun _ => hfit hle
    · rw [if_neg hle]
      exact ⟨fun _ h => absurd h hle, fun _ => ⟨calls, rfl⟩⟩

/-- A sum of two cell counts that has wrapped is less than the first. -/
theorem cells_le_iff (a b : UInt32) : a.toNat ≤ (a + b).toNat ↔ a.toNat + b.toNat < 2^32 := by
  have ha := a.toNat_lt
  have hb := b.toNat_lt
  rw [UInt32.toNat_add]
  omega

/-- `parse` reads a `reg` exactly if its cells fit. -/
theorem parseReg_ok_iff (ctx : NodeContext) (value : Bytes) (calls : List Call) :
    (∃ r, parseReg ctx value calls = .ok r) ↔
      CellsFit [ctx.addrCells, ctx.sizeCells] value.length := by
  have hsum := UInt32.toNat_add ctx.addrCells ctx.sizeCells
  have hcells := cells_le_iff ctx.addrCells ctx.sizeCells
  unfold parseReg CellsFit
  simp only [List.map_cons, List.map_nil, List.sum_cons, List.sum_nil, Nat.add_zero, ← hsum]
  by_cases hzero : (ctx.addrCells + ctx.sizeCells).toNat = 0
  · rw [if_pos hzero]
    exact ⟨fun _ => .inr (.inl hzero), fun _ => ⟨calls, rfl⟩⟩
  · rw [if_neg hzero, regLoop_ok_iff ctx value _ _ _ (by omega) (by omega)]
    omega

/-- `parse` keeps its arrays in order. -/
theorem parseVisitor_keeps : parseVisitor.Keeps ParseState.Inv where
  beginNode := by
    intro s name hs
    obtain ⟨parent, hparent⟩ := parentOf_ok (hs.depth_le.trans_eq hs.length.symm)
    show ∃ s', parseBegin name s = .ok s' ∧ s'.Inv
    rw [parseBegin, hparent, Exec.ok_bind, NodeContext.enter_eq, Exec.ok_bind]
    split
    · rename_i hlt
      rw [setIndex_ok hlt, Exec.ok_bind]
      refine ⟨_, rfl, ?_, ?_⟩
      · exact List.length_set.trans hs.length
      · show s.depth + 1 ≤ 32
        rw [hs.length] at hlt
        omega
    · exact ⟨s, rfl, hs⟩
  endNode := by
    intro s hs
    refine ⟨_, rfl, ?_⟩
    rintro s' ⟨⟩
    rw [parseEnd_eq]
    exact ⟨hs.length, (Nat.sub_le _ _).trans hs.depth_le⟩
  prop := by
    intro s name value s' hs h
    obtain ⟨t, ht, hcases⟩ := parseProp_cases h
    cases ht
    rcases hcases with ⟨-, rfl⟩ | ⟨-, ctx, -, ⟨-, calls, -, rfl⟩ | ⟨-, ctx', -, rfl⟩⟩
    · exact hs
    · exact ⟨hs.length, hs.depth_le⟩
    · exact ⟨List.length_set.trans hs.length, hs.depth_le⟩

/-- A `reg` whose cells fit, in the context of the node that is open. -/
def ParseState.RegFits (s : ParseState) (name value : Bytes) : Prop :=
  name = ascii "reg" → ∀ ctx, 0 < s.depth → s.stack[s.depth - 1]? = some ctx →
    CellsFit [ctx.addrCells, ctx.sizeCells] value.length

/-- `parse` stops at a property exactly if that is a `reg` whose cells do not fit. -/
theorem parseProp_ok_iff {s : ParseState} (hs : s.Inv) (name value : Bytes) :
    (∃ i, parseProp name value s = .ok i) ↔ s.RegFits name value := by
  unfold parseProp ParseState.RegFits
  by_cases hdepth : s.depth = 0
  · rw [if_pos hdepth]
    exact ⟨fun _ _ ctx hpos => by omega, fun _ => ⟨_, rfl⟩⟩
  have hlt : s.depth - 1 < s.stack.length := by
    have hle := hs.depth_le
    have hlen := hs.length
    omega
  rw [if_neg hdepth, index_ok hlt, Exec.ok_bind, List.getElem?_eq_getElem hlt]
  by_cases hreg : name = ascii "reg"
  · rw [if_pos hreg]
    constructor
    · rintro ⟨i, hi⟩ - ctx - hctx
      cases hctx
      obtain ⟨calls, hcalls, -⟩ := Exec.bind_eq_ok.mp hi
      exact (parseReg_ok_iff _ _ _).mp ⟨calls, hcalls⟩
    · intro hfit
      obtain ⟨calls, hcalls⟩ :=
        (parseReg_ok_iff _ value s.calls).mpr (hfit hreg _ (by omega) rfl)
      exact ⟨_, by rw [hcalls]; rfl⟩
  · rw [if_neg hreg]
    obtain ⟨ctx', hctx'⟩ := NodeContext.prop_ok s.stack[s.depth - 1] name value
    rw [hctx', Exec.ok_bind, setIndex_ok hlt]
    exact ⟨fun _ h => absurd h hreg, fun _ => ⟨_, rfl⟩⟩

/-- `parse` returns for a blob exactly if the cells fit in every `reg` that it comes to. -/
theorem parseCalls_ok_iff (b : Blob) : (∃ calls, parseCalls b = .ok calls) ↔
    ∀ name value s, VisitsProp b parseVisitor ParseState.start name value s →
      s.RegFits name value := by
  rw [parseCalls, walk_ok_iff parseVisitor_keeps ParseState.inv_start]
  refine forall₃_congr fun name value s => imp_congr_right fun hvisit => ?_
  exact parseProp_ok_iff (hvisit.inv parseVisitor_keeps ParseState.inv_start) name value

/-- `parse` returns exactly if it does for the blob, if there is one. -/
theorem parse_ok_iff (mem : Memory) (dtbPa : ℕ) (map : MemoryMap) :
    (∃ r, parse mem dtbPa map = .ok r) ↔
      (dtbPa ≠ 0 → ∀ b, readHeader mem dtbPa = .ok (some b) → ∃ calls, parseCalls b = .ok calls) := by
  unfold parse
  by_cases hpa : dtbPa = 0
  · rw [if_pos hpa]
    exact ⟨fun _ hne => absurd hpa hne, fun _ => ⟨_, rfl⟩⟩
  rw [if_neg hpa]
  obtain ⟨b, hb⟩ := readHeader_ok mem dtbPa
  rw [hb, Exec.ok_bind]
  cases b with
  | none => exact ⟨fun _ _ b hb => (by cases hb), fun _ => ⟨_, rfl⟩⟩
  | some b =>
    constructor
    · rintro ⟨r, hr⟩ - b' hb'
      cases hb'
      obtain ⟨calls, hcalls, -⟩ := Exec.bind_eq_ok.mp hr
      exact ⟨calls, hcalls⟩
    · intro h
      obtain ⟨calls, hcalls⟩ := h hpa b rfl
      exact ⟨_, by dsimp only; rw [hcalls]; rfl⟩

end Ralix.Dtb
