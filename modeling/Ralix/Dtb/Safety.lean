import Ralix.Dtb.Uart

/-!
# The walks for the UART are safe

What the functions of `find_uart` need to stay in bounds. The walks for `stdout-path` and for an alias
never stop, whatever the blob is. The walk for a path keeps its path buffer and its two stacks in
order (`RegWalk.Inv`), however deep the nodes are nested and however long their names are, and stops
only at a `ranges` or a `reg` whose cells do not fit (`findRegIn_ok_iff`).
-/

namespace Ralix.Dtb

open Lib Mm

/-! ## Strings of bounded length -/

namespace SmallBuf

/-- The part that counts lies in the array. -/
structure Inv (s : SmallBuf) : Prop where
  length : s.buf.length = 256
  len_le : s.len ≤ 256

/-- A new one is empty. -/
theorem inv_new : new.Inv := ⟨List.length_replicate, Nat.zero_le _⟩

variable {s : SmallBuf}

/-- So is a cleared one. -/
theorem Inv.clear (h : s.Inv) : s.clear.Inv := ⟨h.length, Nat.zero_le _⟩

/-- There is room for a byte. -/
theorem push_ok (h : s.Inv) (hlt : s.len < s.buf.length) (b : UInt8) :
    ∃ s', s.push b = .ok s' ∧ s'.Inv := by
  refine ⟨⟨s.buf.set s.len b, s.len + 1⟩, ?_, List.length_set.trans h.length, ?_⟩
  · rw [push, setIndex_ok hlt, Exec.ok_bind, Exec.pure_eq]
  · show s.len + 1 ≤ 256
    rw [h.length] at hlt
    omega

/-- `set_from` returns. -/
theorem setFrom_ok (h : s.Inv) (src : Bytes) (stop : Option UInt8) :
    ∃ s', s.setFrom src stop = .ok s' ∧ s'.Inv := by
  unfold setFrom
  have hclear := h.clear
  generalize s.clear = t at hclear
  induction src generalizing t with
  | nil => exact ⟨t, rfl, hclear⟩
  | cons b rest ih =>
    rw [setFromLoop]
    split_ifs with hstop
    · exact ⟨t, rfl, hclear⟩
    · obtain ⟨t', ht', hinv⟩ := push_ok hclear (by omega) b
      rw [ht', Exec.ok_bind]
      exact ih t' hinv

/-- `as_slice` returns. -/
theorem asSlice_ok (h : s.Inv) : s.asSlice = .ok (s.buf.take s.len) := by
  rw [asSlice, slice_ok (Nat.zero_le _) (h.len_le.trans_eq h.length.symm)]
  rfl

/-- A name is appended as far as there is room. -/
theorem pushName_ok (h : s.Inv) (name : Bytes) : ∃ s', pushName name s = .ok s' ∧ s'.Inv := by
  induction name generalizing s with
  | nil => exact ⟨s, rfl, h⟩
  | cons b rest ih =>
    rw [pushName]
    split
    · exact ⟨s, rfl, h⟩
    · obtain ⟨s', hs', hinv⟩ := push_ok h (by omega) b
      rw [hs', Exec.ok_bind]
      exact ih hinv

/-- So is the name of a node. -/
theorem enter_ok (h : s.Inv) (name : Bytes) : ∃ s', s.enter name = .ok s' ∧ s'.Inv := by
  unfold enter
  split
  · rename_i hlt
    obtain ⟨s', hs', hinv⟩ := push_ok h hlt 0x2f
    rw [hs', Exec.ok_bind]
    exact pushName_ok hinv name
  · exact pushName_ok h name

end SmallBuf

/-! ## The two scans -/

/-- A scan has nothing to keep. -/
theorem scanVisitor_keeps (node prop : Bytes) : (scanVisitor node prop).Keeps fun _ => True where
  beginNode _ _ := ⟨_, rfl, trivial⟩
  endNode _ := ⟨_, rfl, fun _ _ => trivial⟩
  prop _ _ := trivial

/-- A scan returns for every blob. -/
theorem scan_ok (b : Blob) (node prop : Bytes) :
    ∃ r, walk b (scanVisitor node prop) ScanState.start = .ok r :=
  walk_ok (scanVisitor_keeps node prop) (fun _ _ _ _ => ⟨_, rfl⟩) trivial

/-- `scan_stdout_path` returns for every blob. -/
theorem scanStdoutPath_ok (mem : Memory) (dtbPa : ℕ) {out : SmallBuf} (h : out.Inv) :
    ∃ out', scanStdoutPath mem dtbPa out = .ok out' ∧ out'.Inv := by
  obtain ⟨b, hb⟩ := readHeader_ok mem dtbPa
  rw [scanStdoutPath, hb, Exec.ok_bind]
  cases b with
  | none => exact ⟨_, rfl, h.clear⟩
  | some b =>
    obtain ⟨r, hr⟩ := scan_ok b (ascii "chosen") (ascii "stdout-path")
    dsimp only
    rw [scanStdoutPathIn, hr, Exec.ok_bind]
    cases r with
    | none => exact ⟨_, rfl, h.clear⟩
    | some value => exact SmallBuf.setFrom_ok h.clear value _

/-- `read_alias_path` returns for every blob and alias. -/
theorem readAliasPath_ok (mem : Memory) (dtbPa : ℕ) (aliasName : Bytes) {out : SmallBuf}
    (h : out.Inv) : ∃ found out', readAliasPath mem dtbPa aliasName out = .ok (found, out') ∧
      out'.Inv := by
  obtain ⟨b, hb⟩ := readHeader_ok mem dtbPa
  rw [readAliasPath, hb, Exec.ok_bind]
  cases b with
  | none => exact ⟨_, _, rfl, h.clear⟩
  | some b =>
    obtain ⟨r, hr⟩ := scan_ok b (ascii "aliases") aliasName
    dsimp only
    rw [readAliasPathIn, hr, Exec.ok_bind]
    cases r with
    | none => exact ⟨_, _, rfl, h.clear⟩
    | some value =>
      obtain ⟨out', hout', hinv⟩ := SmallBuf.setFrom_ok h.clear value none
      exact ⟨true, out', by dsimp only; rw [hout']; rfl, hinv⟩

/-! ## The walk for a path -/

/-- A node's ranges. -/
structure RegNode.Inv (node : RegNode) : Prop where
  length : node.ranges.length = 4
  len_le : node.rangesLen ≤ 4

/-- The path, the stacks, and the depth. -/
structure RegWalk.Inv (s : RegWalk) : Prop where
  depth_le : s.depth ≤ 32
  length : s.stack.length = 32
  nodes : ∀ node ∈ s.stack, node.Inv
  path : s.path.Inv
  lenLength : s.pathLenStack.length = 32
  lens : ∀ len ∈ s.pathLenStack, len ≤ 256

/-- A node without ranges. -/
theorem RegNode.inv_root : RegNode.root.Inv := ⟨by decide, by decide⟩

/-- At the start, nothing is open. -/
theorem RegWalk.inv_start : RegWalk.start.Inv where
  depth_le := by decide
  length := by decide
  nodes := by
    intro node hnode
    rw [List.eq_of_mem_replicate hnode]
    exact RegNode.inv_root
  path := SmallBuf.inv_new
  lenLength := by decide
  lens := by
    intro len hlen
    rw [List.eq_of_mem_replicate hlen]
    exact Nat.zero_le _

/-- The entry of a `ranges` is read exactly if its slices fit together. -/
theorem rangesEntry_ok_iff (a p s : UInt32) {value : Bytes} {entryBytes pos : ℕ}
    (h : pos + entryBytes ≤ value.length) :
    (∃ r, rangesEntry a p s value entryBytes pos = .ok r) ↔
      a.toNat ≤ (a + p).toNat ∧ (a + p).toNat * 4 ≤ entryBytes := by
  unfold rangesEntry
  constructor
  · rintro ⟨r, hr⟩
    obtain ⟨buf₁, -, hr⟩ := Exec.bind_eq_ok.mp hr
    obtain ⟨childBase, -, hr⟩ := Exec.bind_eq_ok.mp hr
    obtain ⟨buf₂, hbuf₂, hr⟩ := Exec.bind_eq_ok.mp hr
    obtain ⟨parentBase, -, hr⟩ := Exec.bind_eq_ok.mp hr
    obtain ⟨buf₃, hbuf₃, -⟩ := Exec.bind_eq_ok.mp hr
    have hle₂ := (slice_eq_ok hbuf₂).1
    have hle₃ := (slice_eq_ok hbuf₃).1
    omega
  · rintro ⟨hap, hentry⟩
    rw [slice_ok (by omega) (by omega), Exec.ok_bind]
    obtain ⟨childBase, hchild⟩ := readAddrCells_ok
      ((value.drop pos).take (pos + a.toNat * 4 - pos)) a
    rw [hchild, Exec.ok_bind, slice_ok (by omega) (by omega), Exec.ok_bind]
    obtain ⟨parentBase, hparent⟩ := readCellsTrunc_ok ((value.drop (pos + a.toNat * 4)).take
      (pos + (a + p).toNat * 4 - (pos + a.toNat * 4))) p
    rw [hparent, Exec.ok_bind, slice_ok (by omega) h, Exec.ok_bind]
    obtain ⟨size, hsize⟩ := readCells_ok ((value.drop (pos + (a + p).toNat * 4)).take
      (pos + entryBytes - (pos + (a + p).toNat * 4))) s
    rw [hsize]
    exact ⟨_, rfl⟩

/-- The loop over the entries of a `ranges` keeps the node in order. -/
theorem rangesLoop_inv {a p s : UInt32} {value : Bytes} {entryBytes n pos : ℕ} {node node' : RegNode}
    (hnode : node.Inv) (h : rangesLoop a p s value entryBytes n pos node = .ok node') : node'.Inv := by
  induction n generalizing pos node with
  | zero =>
    cases h
    exact hnode
  | succ n ih =>
    rw [rangesLoop] at h
    split at h
    · rename_i hle
      obtain ⟨range, -, h⟩ := Exec.bind_eq_ok.mp h
      obtain ⟨ranges, hranges, h⟩ := Exec.bind_eq_ok.mp h
      obtain ⟨-, rfl⟩ := setIndex_eq_ok hranges
      refine ih ⟨?_, ?_⟩ h
      · exact List.length_set.trans hnode.length
      · show node.rangesLen + 1 ≤ 4
        have hlen := hnode.length
        omega
    · cases h
      exact hnode

/-- The loop returns exactly if there is no entry to read or the slices fit together. -/
theorem rangesLoop_ok_iff {a p s : UInt32} {value : Bytes} {entryBytes : ℕ} (n pos : ℕ)
    {node : RegNode} (hnode : node.Inv) (hn : value.length ≤ pos + n) (hpos : 0 < entryBytes) :
    (∃ node', rangesLoop a p s value entryBytes n pos node = .ok node') ↔
      (pos + entryBytes ≤ value.length ∧ node.rangesLen < 4 →
        a.toNat ≤ (a + p).toNat ∧ (a + p).toNat * 4 ≤ entryBytes) := by
  have hlen := hnode.length
  induction n generalizing pos node with
  | zero => exact ⟨fun _ h => by omega, fun _ => ⟨node, rfl⟩⟩
  | succ n ih =>
    rw [rangesLoop, hlen]
    by_cases hle : pos + entryBytes ≤ value.length ∧ node.rangesLen < 4
    · rw [if_pos hle]
      constructor
      · rintro ⟨r, hr⟩ -
        obtain ⟨range, hrange, -⟩ := Exec.bind_eq_ok.mp hr
        exact (rangesEntry_ok_iff a p s hle.1).mp ⟨range, hrange⟩
      · intro hfit
        obtain ⟨range, hrange⟩ := (rangesEntry_ok_iff a p s hle.1).mpr (hfit hle)
        rw [hrange, Exec.ok_bind, setIndex_ok (by omega), Exec.ok_bind]
        have hset : (node.ranges.set node.rangesLen range).length = 4 :=
          List.length_set.trans hlen
        let node' : RegNode :=
          { node with
            ranges := node.ranges.set node.rangesLen range
            rangesLen := node.rangesLen + 1 }
        have hnode' : node'.Inv := ⟨hset, hle.2⟩
        exact (ih (pos + entryBytes) hnode' (by omega) hset).mpr fun _ => hfit hle
    · rw [if_neg hle]
      exact ⟨fun _ h => absurd h hle, fun _ => ⟨node, rfl⟩⟩

/-- A sum of three cell counts that has wrapped does not keep the first two in order. -/
theorem cells_le_iff₃ (a p s : UInt32) :
    a.toNat ≤ (a + p).toNat ∧ (a + p).toNat ≤ (a + p + s).toNat ↔
      a.toNat + p.toNat + s.toNat < 2^32 := by
  have ha := a.toNat_lt
  have hp := p.toNat_lt
  have hs := s.toNat_lt
  rw [UInt32.toNat_add (a + p) s, UInt32.toNat_add a p]
  omega

/-- `find_reg_by_path` reads a `ranges` exactly if its cells fit. -/
theorem regRanges_ok_iff {node : RegNode} (hnode : node.Inv) (p : UInt32) (value : Bytes) :
    (∃ node', regRanges node p value = .ok node') ↔
      CellsFit [node.addrCells, p, node.sizeCells] value.length := by
  have hsum : (node.addrCells + p + node.sizeCells).toNat =
      (node.addrCells.toNat + (p.toNat + node.sizeCells.toNat)) % 2^32 := by
    rw [UInt32.toNat_add, UInt32.toNat_add]
    omega
  have hcells := cells_le_iff₃ node.addrCells p node.sizeCells
  unfold regRanges CellsFit
  simp only [List.map_cons, List.map_nil, List.sum_cons, List.sum_nil, Nat.add_zero, ← hsum]
  by_cases hzero : (node.addrCells + p + node.sizeCells).toNat = 0
  · rw [if_pos hzero]
    exact ⟨fun _ => .inr (.inl hzero), fun _ => ⟨node, rfl⟩⟩
  · have hempty : RegNode.Inv { node with rangesLen := 0 } := ⟨hnode.length, Nat.zero_le _⟩
    rw [if_neg hzero, rangesLoop_ok_iff _ _ hempty (by omega) (by omega)]
    dsimp only
    omega

/-- A property of an open node is read, unless it is a `ranges` whose cells do not fit. -/
theorem RegNode.prop_ok_iff {node : RegNode} (hnode : node.Inv) (p : UInt32) (name value : Bytes) :
    (∃ node', node.prop p name value = .ok node') ↔
      (name = ascii "ranges" → CellsFit [node.addrCells, p, node.sizeCells] value.length) := by
  unfold prop
  split_ifs with haddr hsize hranges
  · obtain ⟨x, hx⟩ := u32Or_ok value node.addrCells
    refine ⟨fun _ h => ?_, fun _ => ⟨_, by rw [hx]; rfl⟩⟩
    exact absurd (haddr.symm.trans h) (by decide)
  · obtain ⟨x, hx⟩ := u32Or_ok value node.sizeCells
    refine ⟨fun _ h => ?_, fun _ => ⟨_, by rw [hx]; rfl⟩⟩
    exact absurd (hsize.symm.trans h) (by decide)
  · rw [regRanges_ok_iff hnode]
    exact ⟨fun h _ => h, fun h => h hranges⟩
  · exact ⟨fun _ h => absurd h hranges, fun _ => ⟨_, rfl⟩⟩

/-- A property keeps an open node in order. -/
theorem RegNode.prop_inv {node node' : RegNode} (hnode : node.Inv) {p : UInt32} {name value : Bytes}
    (h : node.prop p name value = .ok node') : node'.Inv := by
  unfold prop at h
  split_ifs at h
  · obtain ⟨x, -, h⟩ := Exec.bind_eq_ok.mp h
    cases h
    exact ⟨hnode.length, hnode.len_le⟩
  · obtain ⟨x, -, h⟩ := Exec.bind_eq_ok.mp h
    cases h
    exact ⟨hnode.length, hnode.len_le⟩
  · unfold regRanges at h
    dsimp only at h
    split at h
    · cases h
      exact hnode
    · have hempty : RegNode.Inv { node with rangesLen := 0 } := ⟨hnode.length, Nat.zero_le _⟩
      exact rangesLoop_inv hempty h
  · cases h
    exact hnode

/-- The first entry of a `reg` is read exactly if its cells fit. -/
theorem firstReg_ok_iff (node : RegNode) (value : Bytes) :
    (∃ r, firstReg node value = .ok r) ↔ CellsFit [node.addrCells, node.sizeCells] value.length := by
  have hsum := UInt32.toNat_add node.addrCells node.sizeCells
  have hcells := cells_le_iff node.addrCells node.sizeCells
  unfold firstReg CellsFit
  simp only [List.map_cons, List.map_nil, List.sum_cons, List.sum_nil, Nat.add_zero, ← hsum]
  by_cases hzero : (node.addrCells + node.sizeCells).toNat = 0
  · rw [if_pos hzero]
    exact ⟨fun _ => .inr (.inl hzero), fun _ => ⟨none, rfl⟩⟩
  rw [if_neg hzero]
  by_cases hlen : value.length < (node.addrCells + node.sizeCells).toNat * 4
  · rw [if_pos hlen]
    exact ⟨fun _ => .inr (.inr hlen), fun _ => ⟨none, rfl⟩⟩
  rw [if_neg hlen]
  constructor
  · rintro ⟨r, hr⟩
    obtain ⟨buf₁, -, hr⟩ := Exec.bind_eq_ok.mp hr
    obtain ⟨addr, -, hr⟩ := Exec.bind_eq_ok.mp hr
    obtain ⟨buf₂, hbuf₂, -⟩ := Exec.bind_eq_ok.mp hr
    have hle := (slice_eq_ok hbuf₂).1
    omega
  · intro hfit
    rw [slice_ok (Nat.zero_le _) (by omega), Exec.ok_bind]
    obtain ⟨addr, haddr⟩ := readAddrCells_ok
      ((value.drop 0).take (node.addrCells.toNat * 4 - 0)) node.addrCells
    rw [haddr, Exec.ok_bind, slice_ok (by omega) (by omega), Exec.ok_bind]
    obtain ⟨size, hsize⟩ := readCells_ok ((value.drop (node.addrCells.toNat * 4)).take
      ((node.addrCells + node.sizeCells).toNat * 4 - node.addrCells.toNat * 4)) node.sizeCells
    rw [hsize]
    exact ⟨_, rfl⟩

/-- The loop over a node's ranges returns. -/
theorem mapLoop_ok {ranges : List Range} (cur : UInt64) {n i : ℕ} (h : i + n ≤ ranges.length) :
    ∃ r, mapLoop ranges cur n i = .ok r := by
  induction n generalizing i with
  | zero => exact ⟨_, rfl⟩
  | succ n ih =>
    rw [mapLoop, index_ok (by omega), Exec.ok_bind]
    split
    · exact ⟨_, rfl⟩
    · exact ih (by omega)

/-- The translation of an address returns. -/
theorem translateLoop_ok {stack : List RegNode} (hnodes : ∀ node ∈ stack, node.Inv) {idx : ℕ}
    (h : idx ≤ stack.length) (cur : UInt64) : ∃ r, translateLoop stack idx cur = .ok r := by
  induction idx generalizing cur with
  | zero => exact ⟨_, rfl⟩
  | succ idx ih =>
    have hnode := hnodes _ (List.getElem_mem (n := idx) (by omega))
    rw [translateLoop, index_ok (by omega), Exec.ok_bind]
    split
    · have hlen := hnode.length
      have hle := hnode.len_le
      obtain ⟨r, hr⟩ := mapLoop_ok cur
        (show 0 + stack[idx].rangesLen ≤ stack[idx].ranges.length by omega)
      rw [hr, Exec.ok_bind]
      cases r with
      | none => exact ⟨_, rfl⟩
      | some next => exact ih (by omega) next
    · exact ih (by omega) cur

/-- `is_rp1_path` returns. -/
theorem isRp1Path_ok {path : SmallBuf} (h : path.Inv) : ∃ r, isRp1Path path = .ok r := by
  have hlen := h.length
  have hle := h.len_le
  unfold isRp1Path
  split
  · rw [slice_ok (Nat.zero_le _) (by omega)]
    exact ⟨_, rfl⟩
  · exact ⟨_, rfl⟩

/-- `path_matches` decides whether the path is the target. -/
theorem pathMatches_eq {path : SmallBuf} (h : path.Inv) (target : Bytes) :
    pathMatches path target = .ok (path.buf.take path.len == target) := by
  have hlen : (path.buf.take path.len).length = path.len := by
    have hlen := h.length
    have hle := h.len_le
    rw [List.length_take]
    omega
  unfold pathMatches
  by_cases hp : path.len = target.length
  · rw [if_pos hp, SmallBuf.asSlice_ok h, Exec.ok_bind, Exec.pure_eq]
  · rw [if_neg hp]
    have hne : path.buf.take path.len ≠ target := by
      intro heq
      rw [heq] at hlen
      exact hp hlen.symm
    rw [beq_eq_false_iff_ne.mpr hne]

/-- The address for the CPU is computed. -/
theorem regPhys_ok {s : RegWalk} (hs : s.Inv) (addr : UInt64) : ∃ r, regPhys s addr = .ok r := by
  have htranslate : ∃ r, translateAddr addr s.depth s.stack = .ok r := by
    unfold translateAddr
    split
    · exact ⟨_, rfl⟩
    · have hle := hs.depth_le
      have hlen := hs.length
      exact translateLoop_ok hs.nodes (by omega) addr
  obtain ⟨phys, hphys⟩ := htranslate
  obtain ⟨rp1, hrp1⟩ := isRp1Path_ok hs.path
  rw [regPhys, hphys, Exec.ok_bind, hrp1, Exec.ok_bind]
  exact ⟨_, rfl⟩

/-- What is done at the target goes on after all properties but `reg`. -/
theorem regTarget_next (s : RegWalk) (node : RegNode) {name : Bytes} (hreg : name ≠ ascii "reg")
    (value : Bytes) : ∃ s', regTarget s node name value = .ok (.next s') := by
  unfold regTarget
  split_ifs with hshift hwidth hclock hlen hskip
  · obtain ⟨x, hx⟩ := u32Or_ok value s.regShift
    exact ⟨_, by rw [hx]; rfl⟩
  · obtain ⟨x, hx⟩ := u32Or_ok value s.regIoWidth
    exact ⟨_, by rw [hx]; rfl⟩
  · obtain ⟨x, hx⟩ := readBeU32_ok hlen
    exact ⟨_, by rw [hx]; rfl⟩
  · exact ⟨_, rfl⟩
  · exact ⟨_, rfl⟩
  · exact ⟨_, rfl⟩

/-- What is done at the target stops only at a `reg` whose cells do not fit. -/
theorem regTarget_ok_iff {s : RegWalk} (hs : s.Inv) (node : RegNode) (name value : Bytes) :
    (∃ i, regTarget s node name value = .ok i) ↔
      (name = ascii "reg" → CellsFit [node.addrCells, node.sizeCells] value.length) := by
  by_cases hreg : name = ascii "reg"
  · subst hreg
    rw [regTarget, if_neg (by decide), if_neg (by decide), if_neg (by decide), if_neg (by decide), if_pos rfl,
      ← firstReg_ok_iff]
    unfold regFound
    constructor
    · rintro ⟨i, hi⟩ -
      obtain ⟨r, hr, -⟩ := Exec.bind_eq_ok.mp hi
      exact ⟨r, hr⟩
    · intro h
      obtain ⟨r, hr⟩ := h rfl
      rw [hr, Exec.ok_bind]
      cases r with
      | none => exact ⟨_, rfl⟩
      | some entry =>
        obtain ⟨phys, hphys⟩ := regPhys_ok hs entry.1
        dsimp only
        rw [hphys, Exec.ok_bind]
        cases phys with
        | none => exact ⟨_, rfl⟩
        | some phys => exact ⟨_, rfl⟩
  · obtain ⟨s', hs'⟩ := regTarget_next s node hreg value
    exact ⟨fun _ h => absurd h hreg, fun _ => ⟨_, hs'⟩⟩

/-- Where the walk goes on at a `reg` of the node, it goes on as it was. -/
theorem regFound_next {s s' : RegWalk} {node : RegNode} {value : Bytes}
    (h : regFound s node value = .ok (.next s')) : s' = s := by
  obtain ⟨first, -, h⟩ := Exec.bind_eq_ok.mp h
  cases first with
  | none =>
    cases h
    rfl
  | some entry =>
    obtain ⟨phys, -, h⟩ := Exec.bind_eq_ok.mp h
    cases phys with
    | none => cases h
    | some phys => cases h

/-- What is done at the target changes neither the path nor the stacks. -/
theorem regTarget_frame {s s' : RegWalk} {node : RegNode} {name value : Bytes}
    (h : regTarget s node name value = .ok (.next s')) :
    s'.depth = s.depth ∧ s'.stack = s.stack ∧ s'.path = s.path ∧ s'.pathLenStack = s.pathLenStack := by
  unfold regTarget at h
  split_ifs at h
  · obtain ⟨x, -, h⟩ := Exec.bind_eq_ok.mp h
    cases h
    exact ⟨rfl, rfl, rfl, rfl⟩
  · obtain ⟨x, -, h⟩ := Exec.bind_eq_ok.mp h
    cases h
    exact ⟨rfl, rfl, rfl, rfl⟩
  · obtain ⟨x, -, h⟩ := Exec.bind_eq_ok.mp h
    cases h
    exact ⟨rfl, rfl, rfl, rfl⟩
  · cases h
    exact ⟨rfl, rfl, rfl, rfl⟩
  · cases h
    exact ⟨rfl, rfl, rfl, rfl⟩
  · obtain rfl := regFound_next h
    exact ⟨rfl, rfl, rfl, rfl⟩
  · cases h
    exact ⟨rfl, rfl, rfl, rfl⟩

/-- So it keeps them in order. -/
theorem regTarget_inv {s s' : RegWalk} (hs : s.Inv) {node : RegNode} {name value : Bytes}
    (h : regTarget s node name value = .ok (.next s')) : s'.Inv := by
  obtain ⟨hdepth, hstack, hpath, hlens⟩ := regTarget_frame h
  exact ⟨hdepth ▸ hs.depth_le, hstack ▸ hs.length, hstack ▸ hs.nodes, hpath ▸ hs.path,
    hlens ▸ hs.lenLength, hlens ▸ hs.lens⟩

/-- The lengths to go back to stay lengths of a path. -/
theorem pathLenPush_ok {s : RegWalk} (hs : s.Inv) :
    ∃ lens, pathLenPush s = .ok lens ∧ lens.length = 32 ∧ ∀ len ∈ lens, len ≤ 256 := by
  unfold pathLenPush
  split
  · rename_i hlt
    refine ⟨_, setIndex_ok hlt _, List.length_set.trans hs.lenLength, fun len hlen => ?_⟩
    rcases List.mem_or_eq_of_mem_set hlen with hmem | rfl
    · exact hs.lens len hmem
    · exact hs.path.len_le
  · exact ⟨_, rfl, hs.lenLength, hs.lens⟩

/-- The path stays within its buffer. -/
theorem pathEnter_ok {s : RegWalk} (hs : s.Inv) (name : Bytes) :
    ∃ path, pathEnter s name = .ok path ∧ path.Inv := by
  unfold pathEnter
  split
  · exact ⟨_, rfl, hs.path⟩
  · exact SmallBuf.enter_ok hs.path name

/-- The node around is read. -/
theorem regParentOf_ok {s : RegWalk} (hs : s.Inv) :
    ∃ parent, regParentOf s.stack s.depth = .ok parent ∧ parent.Inv := by
  unfold regParentOf
  split
  · exact ⟨_, rfl, RegNode.inv_root⟩
  · have hle := hs.depth_le
    have hlen := hs.length
    exact ⟨_, index_ok (by omega), hs.nodes _ (List.getElem_mem _)⟩

/-- A node of the stack may be replaced. -/
theorem RegWalk.Inv.set {s : RegWalk} (hs : s.Inv) (i : Nat) {node : RegNode} (hnode : node.Inv) :
    RegWalk.Inv { s with stack := s.stack.set i node } := by
  refine ⟨hs.depth_le, List.length_set.trans hs.length, fun n hn => ?_, hs.path, hs.lenLength, hs.lens⟩
  rcases List.mem_or_eq_of_mem_set hn with hmem | rfl
  · exact hs.nodes n hmem
  · exact hnode

/-- What `find_reg_by_path` does at the beginning of a node: it saves the length of the path and appends
the name to it, and opens the node if there is room. -/
theorem regBegin_cases {s s' : RegWalk} {name : Bytes} (h : regBegin name s = .ok s') :
    ∃ lens path parent, pathLenPush s = .ok lens ∧ pathEnter s name = .ok path ∧
      regParentOf s.stack s.depth = .ok parent ∧
      (s.depth < s.stack.length ∧ s' = { s with
          pathLenStack := lens
          path := path
          stack := s.stack.set s.depth { parent with rangesLen := 0 }
          depth := s.depth + 1 } ∨
        s.stack.length ≤ s.depth ∧ s' = { s with pathLenStack := lens, path := path }) := by
  obtain ⟨lens, hlens, h⟩ := Exec.bind_eq_ok.mp h
  obtain ⟨path, hpath, h⟩ := Exec.bind_eq_ok.mp h
  obtain ⟨parent, hparent, h⟩ := Exec.bind_eq_ok.mp h
  refine ⟨lens, path, parent, hlens, hpath, hparent, ?_⟩
  split at h
  · rename_i hlt
    rw [setIndex_ok hlt] at h
    cases h
    exact .inl ⟨hlt, rfl⟩
  · rename_i hge
    cases h
    exact .inr ⟨Nat.not_lt.mp hge, rfl⟩

/-- What it does at the end of one: it goes back to the path around, if a node is open. -/
theorem regEnd_cases {s s' : RegWalk} (h : regEnd s = .ok s') :
    (∃ len, 0 < s.depth ∧ index s.pathLenStack (s.depth - 1) = .ok len ∧
        s' = { s with depth := s.depth - 1, path := { s.path with len := len } }) ∨
      s.depth = 0 ∧ s' = s := by
  unfold regEnd at h
  split at h
  · rename_i hpos
    obtain ⟨len, hlen, h⟩ := Exec.bind_eq_ok.mp h
    cases h
    exact .inl ⟨len, hpos, hlen, rfl⟩
  · rename_i hzero
    cases h
    exact .inr ⟨Nat.eq_zero_of_not_pos hzero, rfl⟩

/-- A node is entered. -/
theorem regBegin_ok {s : RegWalk} (hs : s.Inv) (name : Bytes) :
    ∃ s', regBegin name s = .ok s' ∧ s'.Inv := by
  obtain ⟨lens, hlens, hlensLen, hlensLe⟩ := pathLenPush_ok hs
  obtain ⟨path, hpath, hpathInv⟩ := pathEnter_ok hs name
  obtain ⟨parent, hparent, hparentInv⟩ := regParentOf_ok hs
  rw [regBegin, hlens, Exec.ok_bind, hpath, Exec.ok_bind, hparent, Exec.ok_bind]
  split
  · rename_i hlt
    have hnode : RegNode.Inv { parent with rangesLen := 0 } := ⟨hparentInv.length, Nat.zero_le _⟩
    have hset := hs.set s.depth hnode
    rw [setIndex_ok hlt, Exec.ok_bind]
    exact ⟨_, rfl, hs.length ▸ hlt, hset.length, hset.nodes, hpathInv, hlensLen, hlensLe⟩
  -- below the 32nd level the stack is left as it is
  · exact ⟨_, rfl, hs.depth_le, hs.length, hs.nodes, hpathInv, hlensLen, hlensLe⟩

/-- A node is left. -/
theorem regEnd_ok {s : RegWalk} (hs : s.Inv) : ∃ s', regEnd s = .ok s' ∧ s'.Inv := by
  unfold regEnd
  split
  · have hle := hs.depth_le
    have hlen := hs.lenLength
    rw [index_ok (by omega), Exec.ok_bind]
    exact ⟨_, rfl, (Nat.sub_le _ _).trans hle, hs.length, hs.nodes,
      ⟨hs.path.length, hs.lens _ (List.getElem_mem _)⟩, hlen, hs.lens⟩
  · exact ⟨s, rfl, hs⟩

/-- What `find_reg_by_path` does at a property: nothing outside all nodes; else the open node takes the
property, and if the path is the target's, more is done with it. -/
theorem regProp_cases {s : RegWalk} {target name value : Bytes} {i : Iter RegWalk (Option UartInfo)}
    (h : regProp target name value s = .ok i) : s.depth = 0 ∧ i = .next s ∨
      ∃ node p node', 0 < s.depth ∧ index s.stack (s.depth - 1) = .ok node ∧
        parentAddrCells s = .ok p ∧ node.prop p name value = .ok node' ∧
        (pathMatches s.path target = .ok true ∧
            regTarget { s with stack := s.stack.set (s.depth - 1) node' } node name value = .ok i ∨
          pathMatches s.path target = .ok false ∧
            i = .next { s with stack := s.stack.set (s.depth - 1) node' }) := by
  unfold regProp at h
  split at h
  · rename_i hzero
    cases h
    exact .inl ⟨hzero, rfl⟩
  · rename_i hzero
    obtain ⟨node, hnode, h⟩ := Exec.bind_eq_ok.mp h
    obtain ⟨p, hp, h⟩ := Exec.bind_eq_ok.mp h
    obtain ⟨node', hnode', h⟩ := Exec.bind_eq_ok.mp h
    rw [setIndex_ok (lt_of_index hnode), Exec.ok_bind] at h
    obtain ⟨found, hfound, h⟩ := Exec.bind_eq_ok.mp h
    refine .inr ⟨node, p, node', Nat.pos_of_ne_zero hzero, hnode, hp, hnode', ?_⟩
    cases found with
    | true => exact .inl ⟨hfound, h⟩
    | false =>
      cases h
      exact .inr ⟨hfound, rfl⟩

/-- A property keeps the path and the stacks in order. -/
theorem regProp_inv {s s' : RegWalk} (hs : s.Inv) {target name value : Bytes}
    (h : regProp target name value s = .ok (.next s')) : s'.Inv := by
  obtain ⟨-, heq⟩ | ⟨node, p, node', -, hnode, -, hnode', hcases⟩ := regProp_cases h
  · cases heq
    exact hs
  · have hinv := hs.set (s.depth - 1) (RegNode.prop_inv (hs.nodes node (mem_of_index hnode)) hnode')
    obtain ⟨-, htarget⟩ | ⟨-, heq⟩ := hcases
    · exact regTarget_inv hinv htarget
    · cases heq
      exact hinv

/-- It changes nothing else than the stack, and the settings at the target. -/
theorem regProp_frame {s s' : RegWalk} {target name value : Bytes}
    (h : regProp target name value s = .ok (.next s')) :
    s'.depth = s.depth ∧ s'.path = s.path ∧ s'.pathLenStack = s.pathLenStack := by
  obtain ⟨-, heq⟩ | ⟨node, p, node', -, -, -, -, ⟨-, htarget⟩ | ⟨-, heq⟩⟩ := regProp_cases h
  · cases heq
    exact ⟨rfl, rfl, rfl⟩
  · obtain ⟨hdepth, -, hpath, hlens⟩ := regTarget_frame htarget
    exact ⟨hdepth, hpath, hlens⟩
  · cases heq
    exact ⟨rfl, rfl, rfl⟩

/-- `find_reg_by_path` keeps its path and its stacks in order. -/
theorem regVisitor_keeps (target : Bytes) : (regVisitor target).Keeps RegWalk.Inv where
  beginNode := fun name hs => regBegin_ok hs name
  endNode := by
    intro s hs
    obtain ⟨s', hs', hinv⟩ := regEnd_ok hs
    show ∃ i, (regEnd s >>= fun s => pure (Iter.next s)) = .ok i ∧ _
    rw [hs']
    refine ⟨.next s', rfl, ?_⟩
    rintro _ ⟨⟩
    exact hinv
  prop := fun hs h => regProp_inv hs h

/-- A node that is entered leaves them in order. -/
theorem regBegin_inv {s s' : RegWalk} {name : Bytes} (hs : s.Inv) (h : regBegin name s = .ok s') :
    s'.Inv := by
  obtain ⟨t, ht, hinv⟩ := regBegin_ok hs name
  cases h.symm.trans ht
  exact hinv

/-- So does one that is left. -/
theorem regEnd_inv {s s' : RegWalk} (hs : s.Inv) (h : regEnd s = .ok s') : s'.Inv := by
  obtain ⟨t, ht, hinv⟩ := regEnd_ok hs
  cases h.symm.trans ht
  exact hinv

/-- The cells of a `ranges` and, at the target, of a `reg` fit, in the node that is open. -/
def RegWalk.CellsFit (s : RegWalk) (target name value : Bytes) : Prop :=
  ∀ node p, 0 < s.depth → s.stack[s.depth - 1]? = some node → parentAddrCells s = .ok p →
    (name = ascii "ranges" → Dtb.CellsFit [node.addrCells, p, node.sizeCells] value.length) ∧
    (name = ascii "reg" → s.path.buf.take s.path.len = target →
      Dtb.CellsFit [node.addrCells, node.sizeCells] value.length)

/-- `find_reg_by_path` stops at a property exactly if its cells do not fit. -/
theorem regProp_ok_iff {s : RegWalk} (hs : s.Inv) (target name value : Bytes) :
    (∃ i, regProp target name value s = .ok i) ↔ s.CellsFit target name value := by
  unfold regProp RegWalk.CellsFit
  by_cases hdepth : s.depth = 0
  -- outside all nodes, nothing is read
  · rw [if_pos hdepth]
    exact ⟨fun _ node p hpos => by omega, fun _ => ⟨_, rfl⟩⟩
  have hle := hs.depth_le
  have hlt : s.depth - 1 < s.stack.length := by
    have hlen := hs.length
    omega
  have hnode := hs.nodes _ (List.getElem_mem hlt)
  obtain ⟨p, hp⟩ : ∃ p, parentAddrCells s = .ok p := by
    unfold parentAddrCells
    split
    · have hlen := hs.length
      rw [index_ok (by omega)]
      exact ⟨_, rfl⟩
    · exact ⟨_, rfl⟩
  have hprop := RegNode.prop_ok_iff hnode p name value
  rw [if_neg hdepth, index_ok hlt, Exec.ok_bind, hp, Exec.ok_bind, List.getElem?_eq_getElem hlt]
  constructor
  · rintro ⟨i, hi⟩ node q - hnode' hq
    cases hnode'
    cases hq
    obtain ⟨node', hnode', hi⟩ := Exec.bind_eq_ok.mp hi
    refine ⟨hprop.mp ⟨node', hnode'⟩, fun hreg hpath => ?_⟩
    rw [setIndex_ok hlt, Exec.ok_bind, pathMatches_eq hs.path, Exec.ok_bind,
      if_pos (beq_iff_eq.mpr hpath)] at hi
    exact (regTarget_ok_iff (hs.set _ (RegNode.prop_inv hnode hnode')) _ name value).mp ⟨i, hi⟩ hreg
  · intro hfit
    obtain ⟨hranges, hreg⟩ := hfit _ p (by omega) rfl rfl
    obtain ⟨node', hnode'⟩ := hprop.mpr hranges
    rw [hnode', Exec.ok_bind, setIndex_ok hlt, Exec.ok_bind, pathMatches_eq hs.path, Exec.ok_bind]
    split
    · rename_i hpath
      exact (regTarget_ok_iff (hs.set _ (RegNode.prop_inv hnode hnode')) _ name value).mpr fun h =>
        hreg h (beq_iff_eq.mp hpath)
    · exact ⟨_, rfl⟩

/-- `find_reg_by_path` returns for a blob exactly if the cells fit in every `ranges` that it comes to,
and in every `reg` of the target. -/
theorem findRegIn_ok_iff (b : Blob) (target : Bytes) : (∃ r, findRegIn b target = .ok r) ↔
    ∀ name value s, VisitsProp b (regVisitor target) RegWalk.start name value s →
      s.CellsFit target name value := by
  rw [findRegIn, walk_ok_iff (regVisitor_keeps target) RegWalk.inv_start]
  refine forall₃_congr fun name value s => imp_congr_right fun hvisit => ?_
  exact regProp_ok_iff (hvisit.inv (regVisitor_keeps target) RegWalk.inv_start) target name value

/-! ## All functions -/

/-- The five functions return for what is in memory at an address, whatever else they are given. -/
def Safe (mem : Memory) (dtbPa : ℕ) : Prop :=
  (∀ map, ∃ r, parse mem dtbPa map = .ok r) ∧ (∃ r, findSimplefb mem dtbPa = .ok r) ∧
    (∀ out : SmallBuf, out.Inv → ∃ r, scanStdoutPath mem dtbPa out = .ok r) ∧
    (∀ aliasName, ∀ out : SmallBuf, out.Inv → ∃ r, readAliasPath mem dtbPa aliasName out = .ok r) ∧
    ∀ target, ∃ r, findRegByPath mem dtbPa target = .ok r

/-- The cells fit in every `reg` that `parse` comes to. -/
def Blob.ParseFits (b : Blob) : Prop :=
  ∀ name value s, VisitsProp b parseVisitor ParseState.start name value s → s.RegFits name value

/-- The cells fit in every `reg` that `find_simplefb` comes to. -/
def Blob.SimplefbFits (b : Blob) : Prop :=
  ∀ name value s, VisitsProp b simplefbVisitor SimpleFbWalk.start name value s → s.RegFits name value

/-- The cells fit in every `ranges` that `find_reg_by_path` comes to, and in every `reg` of the target.
-/
def Blob.PathFits (b : Blob) : Prop :=
  ∀ target name value s, VisitsProp b (regVisitor target) RegWalk.start name value s →
    s.CellsFit target name value

/-- A function that reads the header and does something with the blob returns if that does. -/
theorem header_ok_iff {α : Type} (mem : Memory) (dtbPa : ℕ) (f : Option Blob → Exec α)
    (hnone : ∃ r, f none = .ok r) : (∃ r, (readHeader mem dtbPa >>= f) = .ok r) ↔
      ∀ b, readHeader mem dtbPa = .ok (some b) → ∃ r, f (some b) = .ok r := by
  obtain ⟨b, hb⟩ := readHeader_ok mem dtbPa
  rw [hb, Exec.ok_bind]
  cases b with
  | none => exact ⟨fun _ b hb => (by cases hb), fun _ => hnone⟩
  | some b =>
    constructor
    · rintro h b' hb'
      cases hb'
      exact h
    · intro h
      exact h b rfl

/-- The five functions return, for every content of memory, exactly if the cells fit wherever one of
the three that read cells comes to. -/
theorem safe_iff (mem : Memory) (dtbPa : ℕ) : Safe mem dtbPa ↔
    ∀ b, readHeader mem dtbPa = .ok (some b) →
      (dtbPa ≠ 0 → b.ParseFits ∧ b.SimplefbFits) ∧ b.PathFits := by
  have hparse : (∀ map, ∃ r, parse mem dtbPa map = .ok r) ↔
      (dtbPa ≠ 0 → ∀ b, readHeader mem dtbPa = .ok (some b) → b.ParseFits) := by
    simp only [parse_ok_iff, parseCalls_ok_iff]
    exact ⟨fun h => h MemoryMap.new, fun h _ => h⟩
  have hsimplefb : (∃ r, findSimplefb mem dtbPa = .ok r) ↔
      (dtbPa ≠ 0 → ∀ b, readHeader mem dtbPa = .ok (some b) → b.SimplefbFits) := by
    unfold findSimplefb
    by_cases hpa : dtbPa = 0
    · rw [if_pos hpa]
      exact ⟨fun _ hne => absurd hpa hne, fun _ => ⟨_, rfl⟩⟩
    · rw [if_neg hpa]
      refine (header_ok_iff mem dtbPa _ ?_).trans ?_
      · exact ⟨none, rfl⟩
      · simp only [findSimplefbIn_ok_iff]
        exact ⟨fun h _ => h, fun h => h hpa⟩
  have hpath : (∀ target, ∃ r, findRegByPath mem dtbPa target = .ok r) ↔
      ∀ b, readHeader mem dtbPa = .ok (some b) → b.PathFits := by
    have hone : ∀ target, (∃ r, findRegByPath mem dtbPa target = .ok r) ↔
        ∀ b, readHeader mem dtbPa = .ok (some b) → ∃ r, findRegIn b target = .ok r := by
      intro target
      refine header_ok_iff mem dtbPa _ ?_
      exact ⟨none, rfl⟩
    simp only [hone, findRegIn_ok_iff]
    exact ⟨fun h b hb target => h target b hb, fun h target b hb => h b hb target⟩
  have hscan : ∀ out : SmallBuf, out.Inv → ∃ r, scanStdoutPath mem dtbPa out = .ok r := by
    intro out hout
    obtain ⟨out', h, -⟩ := scanStdoutPath_ok mem dtbPa hout
    exact ⟨out', h⟩
  have halias : ∀ aliasName, ∀ out : SmallBuf, out.Inv →
      ∃ r, readAliasPath mem dtbPa aliasName out = .ok r := by
    intro aliasName out hout
    obtain ⟨found, out', h, -⟩ := readAliasPath_ok mem dtbPa aliasName hout
    exact ⟨_, h⟩
  unfold Safe
  rw [hparse, hsimplefb, hpath]
  constructor
  · rintro ⟨h₁, h₂, -, -, h₃⟩ b hb
    exact ⟨fun hpa => ⟨h₁ hpa b hb, h₂ hpa b hb⟩, h₃ b hb⟩
  · intro h
    exact ⟨fun hpa b hb => ((h b hb).1 hpa).1, fun hpa b hb => ((h b hb).1 hpa).2, hscan, halias,
      fun b hb => (h b hb).2⟩

/-- A blob of one node with `2^32 - 1` address cells, two size cells, and a `reg` of four bytes. -/
def wrappingBytes : Bytes :=
  -- The header.
  [0xd0, 0x0d, 0xfe, 0xed, 0, 0, 0, 99, 0, 0, 0, 40, 0, 0, 0, 80, 0, 0, 0, 0, 0, 0, 0, 17,
    0, 0, 0, 16, 0, 0, 0, 0, 0, 0, 0, 19, 0, 0, 0, 40] ++
  -- The struct block: the root node, `#address-cells`, and `reg`.
  [0, 0, 0, 1, 0, 0, 0, 0] ++ [0, 0, 0, 3, 0, 0, 0, 4, 0, 0, 0, 0, 0xff, 0xff, 0xff, 0xff] ++
  [0, 0, 0, 3, 0, 0, 0, 4, 0, 0, 0, 15, 0, 0, 0, 0] ++
  -- The strings block.
  ascii "#address-cells" ++ [0] ++ ascii "reg" ++ [0]

/-- The blob in memory at 4096. -/
def wrappingMemory : Memory := fun addr => wrappingBytes.getD (addr - 4096) 0

/-- `parse` panics on it. -/
theorem not_safe_wrapping : ¬ Safe wrappingMemory 4096 := by
  intro h
  obtain ⟨r, hr⟩ := h.1 MemoryMap.new
  have herror : (parse wrappingMemory 4096 MemoryMap.new).isOk = false := by decide
  rw [hr] at herror
  cases herror

end Ralix.Dtb
