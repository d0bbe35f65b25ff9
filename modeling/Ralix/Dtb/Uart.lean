import Ralix.Dtb.SimpleFb

/-!
# The UART

`find_uart` of `src/mm/dtb.rs`. It takes a path from `/aliases/serial0`, or from `/chosen/stdout-path`,
which may be the name of an alias, and looks for the node with that path and a `reg`. The address is
translated through the `ranges` of the node's ancestors. Buses of the RP1 have a fixed translation
where `ranges` do not lead to the CPU's addresses.

The two walks for `stdout-path` and for an alias are one visitor, and never stop
(`scanStdoutPath_ok`, `readAliasPath_ok`). The walk for the path panics at a `ranges` or, at the path,
a `reg` whose cells do not fit, and nowhere else (`findRegIn_ok_iff`).
-/

namespace Ralix.Dtb

open Lib

/-! ## Strings of bounded length -/

/-- `SmallBuf`: an array of 256 bytes, of which the first `len` count. -/
structure SmallBuf where
  buf : Bytes
  len : ℕ

namespace SmallBuf

/-- `SmallBuf::new`. -/
def new : SmallBuf := ⟨List.replicate 256 0, 0⟩

/-- `clear`. -/
def clear (s : SmallBuf) : SmallBuf := { s with len := 0 }

/-- A byte at the end: `buf[len] = b; len += 1`. -/
def push (s : SmallBuf) (b : UInt8) : Exec SmallBuf := do
  return ⟨← setIndex s.buf s.len b, s.len + 1⟩

/-- The loop of `set_from`. -/
def setFromLoop (stop : Option UInt8) : Bytes → SmallBuf → Exec SmallBuf
  | [], s => .ok s
  | b :: rest, s =>
    if b = 0 ∨ stop = some b ∨ s.len ≥ s.buf.length then .ok s
    else do
      setFromLoop stop rest (← s.push b)

/-- `set_from`. -/
def setFrom (s : SmallBuf) (src : Bytes) (stop : Option UInt8) : Exec SmallBuf :=
  setFromLoop stop src s.clear

/-- `as_slice`. -/
def asSlice (s : SmallBuf) : Exec Bytes := slice s.buf 0 s.len

/-- The loop that appends a node's name, as far as there is room. -/
def pushName : Bytes → SmallBuf → Exec SmallBuf
  | [], s => .ok s
  | b :: rest, s =>
    if s.len ≥ s.buf.length then .ok s
    else do
      pushName rest (← s.push b)

/-- A node's name is appended after a slash. -/
def enter (s : SmallBuf) (name : Bytes) : Exec SmallBuf :=
  if s.len < s.buf.length then do
    pushName name (← s.push 0x2f)
  else pushName name s

end SmallBuf

/-! ## A property of a node below the root -/

/-- The variables of `scan_stdout_path` and `read_alias_path`: `in_chosen` and `chosen_depth`, or
`in_aliases` and `aliases_depth`. -/
structure ScanState where
  depth : ℕ
  inside : Bool
  insideDepth : ℕ
deriving DecidableEq, Repr

/-- The variables before the loop. -/
def ScanState.start : ScanState := ⟨0, false, 0⟩

/-- What the two functions do at `FDT_BEGIN_NODE`. -/
def scanBegin (node name : Bytes) (s : ScanState) : ScanState :=
  let isRoot := s.depth = 0 ∧ name = []
  let depth := s.depth + 1
  if ¬ isRoot ∧ depth = 2 ∧ name = node then ⟨depth, true, depth⟩ else { s with depth }

/-- What they do at `FDT_END_NODE`. -/
def scanEnd (s : ScanState) : ScanState :=
  let inside := s.inside && s.depth ≠ s.insideDepth
  { s with inside, depth := s.depth - 1 }

/-- The value of the first property `prop` of a node `node` below the root. -/
def scanVisitor (node prop : Bytes) : Visitor ScanState (Option Bytes) where
  beginNode name s := .ok (scanBegin node name s)
  endNode s := .ok (.next (scanEnd s))
  prop name value s := .ok (if s.inside ∧ name = prop then .done (some value) else .next s)
  finish _ := none

/-- The walk of `scan_stdout_path`. -/
def scanStdoutPathIn (b : Blob) : Exec (Option Bytes) :=
  walk b (scanVisitor (ascii "chosen") (ascii "stdout-path")) ScanState.start

/-- The walk of `read_alias_path`. -/
def readAliasPathIn (b : Blob) (aliasName : Bytes) : Exec (Option Bytes) :=
  walk b (scanVisitor (ascii "aliases") aliasName) ScanState.start

/-- `scan_stdout_path`. -/
def scanStdoutPath (mem : Memory) (dtbPa : ℕ) (out : SmallBuf) : Exec SmallBuf := do
  match ← readHeader mem dtbPa with
  | none => return out.clear
  | some b =>
    match ← scanStdoutPathIn b with
    | none => return out.clear
    | some value => out.clear.setFrom value (some 0x3a)

/-- `read_alias_path`. -/
def readAliasPath (mem : Memory) (dtbPa : ℕ) (aliasName : Bytes) (out : SmallBuf) :
    Exec (Bool × SmallBuf) := do
  match ← readHeader mem dtbPa with
  | none => return (false, out.clear)
  | some b =>
    match ← readAliasPathIn b aliasName with
    | none => return (false, out.clear)
    | some value => return (true, ← out.clear.setFrom value none)

/-! ## The node with a path -/

/-- `Range`. -/
structure Range where
  childBase : UInt64
  parentBase : UInt64
  size : UInt64
deriving DecidableEq, Repr

/-- `RegNode`: the cell counts of an open node, and the first `rangesLen` of four ranges. -/
structure RegNode where
  addrCells : UInt32
  sizeCells : UInt32
  ranges : List Range
  rangesLen : ℕ
deriving DecidableEq, Repr

/-- A node without ranges and with the default cell counts. -/
def RegNode.root : RegNode := ⟨2, 2, List.replicate 4 ⟨0, 0, 0⟩, 0⟩

structure UartInfo where
  addr : UInt64
  size : UInt64
  regShift : UInt32
  regIoWidth : UInt32
  clockHz : Option UInt32
  skipInit : Bool
deriving DecidableEq, Repr

/-- The variables of `find_reg_by_path`. -/
structure RegWalk where
  depth : ℕ
  stack : List RegNode
  path : SmallBuf
  pathLenStack : List ℕ
  regShift : UInt32
  regIoWidth : UInt32
  clockHz : Option UInt32
  skipInit : Bool

/-- The variables before the loop. -/
def RegWalk.start : RegWalk where
  depth := 0
  stack := List.replicate 32 RegNode.root
  path := SmallBuf.new
  pathLenStack := List.replicate 32 0
  regShift := 0
  regIoWidth := 4
  clockHz := none
  skipInit := false

/-- The node that a node begins in, or the default. -/
def regParentOf (stack : List RegNode) (depth : ℕ) : Exec RegNode :=
  if depth = 0 then .ok RegNode.root else index stack (depth - 1)

/-- The path lengths of the open nodes' parents, with that of one more node if there is room. -/
def pathLenPush (s : RegWalk) : Exec (List ℕ) :=
  if s.depth < s.pathLenStack.length then setIndex s.pathLenStack s.depth s.path.len
  else .ok s.pathLenStack

/-- The path of a node that begins. -/
def pathEnter (s : RegWalk) (name : Bytes) : Exec SmallBuf :=
  if s.depth = 0 ∧ name = [] then .ok s.path else s.path.enter name

/-- What `find_reg_by_path` does at `FDT_BEGIN_NODE`. -/
def regBegin (name : Bytes) (s : RegWalk) : Exec RegWalk := do
  let pathLenStack ← pathLenPush s
  let path ← pathEnter s name
  let parent ← regParentOf s.stack s.depth
  if s.depth < s.stack.length then
    let stack ← setIndex s.stack s.depth { parent with rangesLen := 0 }
    return { s with pathLenStack, path, stack, depth := s.depth + 1 }
  else return { s with pathLenStack, path }

/-- What `find_reg_by_path` does at `FDT_END_NODE`. -/
def regEnd (s : RegWalk) : Exec RegWalk :=
  if s.depth > 0 then do
    let len ← index s.pathLenStack (s.depth - 1)
    return { s with depth := s.depth - 1, path := { s.path with len } }
  else .ok s

/-- `path_matches`. -/
def pathMatches (path : SmallBuf) (target : Bytes) : Exec Bool :=
  if path.len = target.length then do
    return (← path.asSlice) == target
  else .ok false

/-- The path of the RP1's buses. -/
def rp1Prefix : Bytes := ascii "/axi/pcie@1000120000/rp1/"

/-- `is_rp1_path`. -/
def isRp1Path (path : SmallBuf) : Exec Bool :=
  if path.len ≥ rp1Prefix.length then do
    return (← slice path.buf 0 rp1Prefix.length) == rp1Prefix
  else .ok false

/-- `rp1_fixup`. -/
def rp1Fixup (addr : UInt64) : UInt64 :=
  let childBase := 0x000000C040000000
  let physBase := 0x0000001C00000000
  if addr ≥ childBase then physBase + (addr - childBase) else physBase + addr

/-- `u64::saturating_add`. -/
def saturatingAdd (a b : UInt64) : UInt64 :=
  if a.toNat + b.toNat < 2^64 then a + b else 0xFFFFFFFFFFFFFFFF

/-- The address that a range translates an address to. -/
def Range.map (r : Range) (cur : UInt64) : Option UInt64 :=
  if cur ≥ r.childBase ∧ cur < saturatingAdd r.childBase r.size then
    some (r.parentBase + (cur - r.childBase))
  else none

/-- The loop over the ranges of a node from `i`, with `n` left. -/
def mapLoop (ranges : List Range) (cur : UInt64) : ℕ → ℕ → Exec (Option UInt64)
  | 0, _ => .ok none
  | n + 1, i => do
    match (← index ranges i).map cur with
    | some mapped => return some mapped
    | none => mapLoop ranges cur n (i + 1)

/-- The loop of `translate_addr`, for the nodes below `idx`. -/
def translateLoop (stack : List RegNode) : ℕ → UInt64 → Exec (Option UInt64)
  | 0, cur => .ok (some cur)
  | idx + 1, cur => do
    let parent ← index stack idx
    if parent.rangesLen > 0 then
      match ← mapLoop parent.ranges cur parent.rangesLen 0 with
      | some next => translateLoop stack idx next
      | none => return none
    else translateLoop stack idx cur

/-- `translate_addr`. -/
def translateAddr (addr : UInt64) (depth : ℕ) (stack : List RegNode) : Exec (Option UInt64) :=
  if depth = 0 then .ok (some addr) else translateLoop stack (depth - 1) addr

/-- The entry of a `ranges` at `pos`, with `p` address cells of the parent. -/
def rangesEntry (a p s : UInt32) (value : Bytes) (entryBytes pos : ℕ) : Exec Range := do
  let childBase ← readAddrCells (← slice value pos (pos + a.toNat * 4)) a
  let parentBase ← readCellsTrunc
    (← slice value (pos + a.toNat * 4) (pos + (a + p).toNat * 4)) p
  let size ← readCells (← slice value (pos + (a + p).toNat * 4) (pos + entryBytes)) s
  return ⟨childBase, parentBase, size⟩

/-- The loop over the entries of a `ranges` from `pos`, with at most `n` bytes left. -/
def rangesLoop (a p s : UInt32) (value : Bytes) (entryBytes : ℕ) : ℕ → ℕ → RegNode → Exec RegNode
  | 0, _, node => .ok node
  | n + 1, pos, node =>
    if pos + entryBytes ≤ value.length ∧ node.rangesLen < node.ranges.length then do
      let range ← rangesEntry a p s value entryBytes pos
      let ranges ← setIndex node.ranges node.rangesLen range
      rangesLoop a p s value entryBytes n (pos + entryBytes)
        { node with ranges, rangesLen := node.rangesLen + 1 }
    else .ok node

/-- What `find_reg_by_path` does at a `ranges`. -/
def regRanges (node : RegNode) (p : UInt32) (value : Bytes) : Exec RegNode :=
  let tupleCells := (node.addrCells + p + node.sizeCells).toNat
  if tupleCells = 0 then .ok node
  else rangesLoop node.addrCells p node.sizeCells value (tupleCells * 4) value.length 0
    { node with rangesLen := 0 }

/-- The open node after a property, with `p` address cells of its parent. -/
def RegNode.prop (node : RegNode) (p : UInt32) (name value : Bytes) : Exec RegNode :=
  if name = ascii "#address-cells" then do
    return { node with addrCells := ← u32Or value node.addrCells }
  else if name = ascii "#size-cells" then do
    return { node with sizeCells := ← u32Or value node.sizeCells }
  else if name = ascii "ranges" then regRanges node p value
  else .ok node

/-- The first entry of a `reg`, if there is one: its address and its size. -/
def firstReg (node : RegNode) (value : Bytes) : Exec (Option (UInt64 × UInt64)) :=
  let tupleCells := (node.addrCells + node.sizeCells).toNat
  if tupleCells = 0 then .ok none
  else if value.length < tupleCells * 4 then .ok none
  else do
    let addr ← readAddrCells (← slice value 0 (node.addrCells.toNat * 4)) node.addrCells
    let size ← readCells (← slice value (node.addrCells.toNat * 4) (tupleCells * 4)) node.sizeCells
    return some (addr, size)

/-- The address for the CPU of an address in a node, with the fixup for the buses of the RP1. -/
def regPhys (s : RegWalk) (addr : UInt64) : Exec (Option UInt64) := do
  let phys ← translateAddr addr s.depth s.stack
  let rp1 ← isRp1Path s.path
  let phys := if phys = none ∧ rp1 then some (rp1Fixup addr) else phys
  return phys.map fun phys => if rp1 ∧ phys < 0x100000000 then rp1Fixup addr else phys

/-- What `find_reg_by_path` does at a `reg` of the node that it looks for. -/
def regFound (s : RegWalk) (node : RegNode) (value : Bytes) :
    Exec (Iter RegWalk (Option UartInfo)) := do
  match ← firstReg node value with
  | none => return .next s
  | some (addr, size) =>
    match ← regPhys s addr with
    | none => return .done none
    | some phys =>
      return .done (some ⟨phys, size, s.regShift, s.regIoWidth, s.clockHz, s.skipInit⟩)

/-- What `find_reg_by_path` does at a property of the node that it looks for. -/
def regTarget (s : RegWalk) (node : RegNode) (name value : Bytes) :
    Exec (Iter RegWalk (Option UartInfo)) :=
  if name = ascii "reg-shift" then do
    return .next { s with regShift := ← u32Or value s.regShift }
  else if name = ascii "reg-io-width" then do
    return .next { s with regIoWidth := ← u32Or value s.regIoWidth }
  else if name = ascii "clock-frequency" then
    if value.length ≥ 4 then do
      return .next { s with clockHz := some (← readBeU32 value) }
    else .ok (.next s)
  else if name = ascii "skip-init" then .ok (.next { s with skipInit := true })
  else if name = ascii "reg" then regFound s node value
  else .ok (.next s)

/-- The address cells of the node around the open one. -/
def parentAddrCells (s : RegWalk) : Exec UInt32 :=
  if s.depth ≥ 2 then do
    return (← index s.stack (s.depth - 2)).addrCells
  else .ok 0

/-- What `find_reg_by_path` does at `FDT_PROP`. -/
def regProp (target name value : Bytes) (s : RegWalk) : Exec (Iter RegWalk (Option UartInfo)) :=
  if s.depth = 0 then .ok (.next s)
  else do
    let node ← index s.stack (s.depth - 1)
    let p ← parentAddrCells s
    let stack ← setIndex s.stack (s.depth - 1) (← node.prop p name value)
    if ← pathMatches s.path target then regTarget { s with stack } node name value
    else return .next { s with stack }

/-- The visitor of `find_reg_by_path`. -/
def regVisitor (target : Bytes) : Visitor RegWalk (Option UartInfo) where
  beginNode := regBegin
  endNode s := do
    return .next (← regEnd s)
  prop := regProp target
  finish _ := none

/-- The walk of `find_reg_by_path`. -/
def findRegIn (b : Blob) (target : Bytes) : Exec (Option UartInfo) :=
  walk b (regVisitor target) RegWalk.start

/-- `find_reg_by_path`. -/
def findRegByPath (mem : Memory) (dtbPa : ℕ) (target : Bytes) : Exec (Option UartInfo) := do
  match ← readHeader mem dtbPa with
  | none => return none
  | some b => findRegIn b target

/-- The path that `find_uart` looks for: `serial0`, or else `stdout-path`, which may be an alias. -/
def uartTarget (mem : Memory) (dtbPa : ℕ) : Exec SmallBuf := do
  let stdout ← scanStdoutPath mem dtbPa SmallBuf.new
  let (found, target) ← readAliasPath mem dtbPa (ascii "serial0") SmallBuf.new
  if found then return target
  else if stdout.len ≠ 0 then
    if (← index stdout.buf 0) = 0x2f then return stdout
    else if target.len = 0 then
      let (_, target) ← readAliasPath mem dtbPa (← stdout.asSlice) target
      return target
    else return target
  else return target

/-- `find_uart`. -/
def findUart (mem : Memory) (dtbPa : ℕ) : Exec (Option UartInfo) :=
  if dtbPa = 0 then .ok none
  else do
    let target ← uartTarget mem dtbPa
    if target.len = 0 then return none
    else findRegByPath mem dtbPa (← target.asSlice)

end Ralix.Dtb
