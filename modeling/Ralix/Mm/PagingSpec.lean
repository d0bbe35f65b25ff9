import Mathlib.Data.Finset.Card
import Mathlib.Data.Fintype.Basic
import Mathlib.Data.Fintype.Card
import Ralix.Lib.Writes
import Ralix.Mm.Paging

/-!
# What the page tables hold

A set of tables stands for a map from the numbers of 2 MiB blocks to descriptors, zero where nothing
is mapped (`Represents`). `map_block_with` changes the map at one block (`mapBlockWith_ok`), so after
a list of calls the map has at each block what the last call that covers the block has written there
(`runCalls_ok`). A pool has twice as many tables as an L1 table has entries, so it never runs out.
`walk_eq` is what a walk finds.
-/

namespace Ralix.Mm

open Lib Platform

/-! ## Descriptors -/

/-- The value of a table descriptor. -/
theorem tableDesc_eq {pa : ℕ} (ha : pa % 4096 = 0) (hlt : pa < 2^48) : tableDesc pa = pa + 3 := by
  have hmask : pa &&& 0x0000FFFFFFFFF000 = pa := by
    rw [show (0x0000FFFFFFFFF000 : ℕ) = 2^48 - 2^12 by decide, and_highMask hlt (by decide)]
    omega
  rw [tableDesc, hmask]
  exact or_low (k := 12) ha (by decide)

/-- A table descriptor is one, and holds its address. -/
theorem tableDesc_spec {pa : ℕ} (ha : pa % 4096 = 0) (hlt : pa < 2^48) :
    tableDesc pa &&& 0b11 = descTable ∧ tableDesc pa &&& 0x0000FFFFFFFFF000 = pa := by
  rw [tableDesc_eq ha hlt]
  constructor
  · rw [show (0b11 : ℕ) = 2^2 - 1 by decide, and_lowMask]
    unfold descTable
    omega
  · rw [show (0x0000FFFFFFFFF000 : ℕ) = 2^48 - 2^12 by decide, and_highMask (by omega) (by decide)]
    omega

/-- The value of a block descriptor. -/
theorem blockDesc_eq {attr ap sh : ℕ} (hattr : attr < 8) (hap : ap < 4) (hsh : sh < 4) (pa : ℕ)
    (xn : Bool) : blockDesc pa attr ap sh xn =
      1 + attr * 4 + ap * 64 + sh * 256 + 1024 + pa % 2^48 / 2^21 * 2^21 +
        if xn then 2^54 + 2^53 else 0 := by
  -- The fields are put in from the lowest bit up, so each `or` is a sum.
  have hlow : ∀ {a b k : ℕ}, b < 2^k → a % 2^k = 0 → b ||| a = b + a := by
    intro a b k hb ha
    rw [Nat.or_comm, or_low ha hb, Nat.add_comm]
  have hattr' : (attr &&& 0x7) <<< 2 = attr * 4 := by
    rw [show (0x7 : ℕ) = 2^3 - 1 by decide, and_lowMask, Nat.shiftLeft_eq]
    omega
  have hap' : (ap &&& 0x3) <<< 6 = ap * 64 := by
    rw [show (0x3 : ℕ) = 2^2 - 1 by decide, and_lowMask, Nat.shiftLeft_eq]
    omega
  have hsh' : (sh &&& 0x3) <<< 8 = sh * 256 := by
    rw [show (0x3 : ℕ) = 2^2 - 1 by decide, and_lowMask, Nat.shiftLeft_eq]
    omega
  have hpa : pa &&& 0x0000FFFFFFE00000 = pa % 2^48 / 2^21 * 2^21 := by
    rw [show (0x0000FFFFFFE00000 : ℕ) = 2^48 - 2^21 by decide, and_mask (by decide)]
  have hxn : uxnBit ||| pxnBit = 2^54 + 2^53 := by decide
  have h1 : descBlock ||| attr * 4 = 1 + attr * 4 := hlow (k := 2) (by decide) (by omega)
  have h2 : 1 + attr * 4 ||| ap * 64 = 1 + attr * 4 + ap * 64 :=
    hlow (k := 6) (by omega) (by omega)
  have h3 : 1 + attr * 4 + ap * 64 ||| sh * 256 = 1 + attr * 4 + ap * 64 + sh * 256 :=
    hlow (k := 8) (by omega) (by omega)
  have h4 : 1 + attr * 4 + ap * 64 + sh * 256 ||| afBit =
      1 + attr * 4 + ap * 64 + sh * 256 + 1024 := hlow (k := 10) (by omega) (by decide)
  have h5 : 1 + attr * 4 + ap * 64 + sh * 256 + 1024 ||| pa % 2^48 / 2^21 * 2^21 =
      1 + attr * 4 + ap * 64 + sh * 256 + 1024 + pa % 2^48 / 2^21 * 2^21 :=
    hlow (k := 21) (by omega) (by omega)
  unfold blockDesc
  simp only [hattr', hap', hsh', hpa, hxn, h1, h2, h3, h4, h5]
  split
  · exact hlow (k := 53) (by omega) (by decide)
  · exact (Nat.add_zero _).symm

/-- A block descriptor is one, and holds its attribute and the address of its block. -/
theorem blockDesc_spec {attr ap sh : ℕ} (hattr : attr < 8) (hap : ap < 4) (hsh : sh < 4) (pa : ℕ)
    (xn : Bool) : blockDesc pa attr ap sh xn &&& 0b11 = descBlock ∧
      blockDesc pa attr ap sh xn >>> 2 &&& 0x7 = attr ∧
      blockDesc pa attr ap sh xn &&& 0x0000FFFFFFE00000 = pa % 2^48 / 2^21 * 2^21 := by
  rw [blockDesc_eq hattr hap hsh]
  refine ⟨?_, ?_, ?_⟩
  · rw [show (0b11 : ℕ) = 2^2 - 1 by decide, and_lowMask]
    unfold descBlock
    split <;> omega
  · rw [show (0x7 : ℕ) = 2^3 - 1 by decide, and_lowMask, Nat.shiftRight_eq_div_pow]
    split <;> omega
  · rw [show (0x0000FFFFFFE00000 : ℕ) = 2^48 - 2^21 by decide, and_mask (by decide)]
    split <;> omega

/-- A block descriptor holds its access permissions, and whether it forbids execution. -/
theorem blockDesc_access {attr ap sh : ℕ} (hattr : attr < 8) (hap : ap < 4) (hsh : sh < 4) (pa : ℕ)
    (xn : Bool) : blockDesc pa attr ap sh xn >>> 6 &&& 0x3 = ap ∧
      blockDesc pa attr ap sh xn &&& (uxnBit ||| pxnBit) = if xn then uxnBit ||| pxnBit else 0 := by
  rw [blockDesc_eq hattr hap hsh]
  constructor
  · rw [show (0x3 : ℕ) = 2^2 - 1 by decide, and_lowMask, Nat.shiftRight_eq_div_pow]
    split <;> omega
  · rw [show uxnBit ||| pxnBit = 2^55 - 2^53 by decide, and_mask (by decide)]
    cases xn with
    | false => simp only [Bool.false_eq_true, if_false]; omega
    | true => simp only [if_true]; omega

/-! ## Addresses -/

/-- In the kernel's window, `phys_to_virt` undoes `virt_to_phys`. -/
theorem physToVirt_virtToPhys {va : ℕ} (h : kernelVirtBase ≤ va ∧ va < kernelVirtBase + 2^47) :
    physToVirt (virtToPhys va) = va := by
  unfold physToVirt virtToPhys wadd wsub kernelVirtBase at *
  omega

/-- A physical address behind the kernel's window. -/
theorem virtToPhys_lt {va : ℕ} (h : kernelVirtBase ≤ va ∧ va < kernelVirtBase + 2^47) :
    virtToPhys va < 2^47 := by
  unfold virtToPhys wsub kernelVirtBase at *
  omega

/-- The kernel's window starts at a page boundary. -/
theorem virtToPhys_mod {va : ℕ} (h : kernelVirtBase ≤ va ∧ va < kernelVirtBase + 2^47)
    (hva : va % 4096 = 0) : virtToPhys va % 4096 = 0 := by
  unfold virtToPhys wsub kernelVirtBase at *
  omega

namespace TableAddrs

variable {s : TableAddrs} {k : Fin l2Tables}

/-- The tables of the pool lie in the kernel's window. -/
theorem poolVa_mem : kernelVirtBase ≤ s.poolVa k ∧ s.poolVa k < kernelVirtBase + 2^47 := by
  have hk := k.isLt
  have hpool := s.pool_mem
  unfold poolVa
  omega

/-- The tables of the pool are aligned. -/
theorem poolVa_mod : s.poolVa k % 4096 = 0 := by
  have hpool := s.pool_aligned
  unfold poolVa
  omega

/-- A table of the pool is found at its address. -/
theorem poolIndex_poolVa : s.poolIndex (s.poolVa k) = some k := by
  have hk := k.isLt
  have hdiv : (s.poolVa k - s.pool) / 4096 = k.val := by
    unfold poolVa
    omega
  have hmod : (s.poolVa k - s.pool) % 4096 = 0 := by
    unfold poolVa
    omega
  unfold poolIndex
  rw [dif_pos ⟨by unfold poolVa; omega, hmod, by omega⟩]
  exact congrArg some (Fin.ext hdiv)

/-- A descriptor of a table of the pool is one, and leads to the table. -/
theorem tableDesc_pool : tableDesc (virtToPhys (s.poolVa k)) &&& 0b11 = descTable ∧
    s.poolIndex (physToVirt (tableDesc (virtToPhys (s.poolVa k)) &&& 0x0000FFFFFFFFF000)) =
      some k := by
  have hlt : virtToPhys (s.poolVa k) < 2^48 := (virtToPhys_lt poolVa_mem).trans (by decide)
  obtain ⟨hdesc, hpa⟩ := tableDesc_spec (virtToPhys_mod poolVa_mem poolVa_mod) hlt
  refine ⟨hdesc, ?_⟩
  rw [hpa, physToVirt_virtToPhys poolVa_mem, poolIndex_poolVa]

end TableAddrs

/-- The number of the block of an address, in the range of one L0 entry. -/
def blockOf (va : ℕ) : ℕ := va / 2^21 % 2^18

/-- The value of a table index. -/
theorem tableIndex_val (va shift : ℕ) : (tableIndex va shift).val = va / 2^shift % 512 := by
  show va >>> shift &&& 0x1ff = _
  rw [show (0x1ff : ℕ) = 2^9 - 1 by decide, and_lowMask, Nat.shiftRight_eq_div_pow]
  rfl

/-- The L1 and the L2 index of an address make up the number of its block. -/
theorem tableIndex_blockOf (va : ℕ) :
    (tableIndex va 30).val * 512 + (tableIndex va 21).val = blockOf va := by
  rw [tableIndex_val, tableIndex_val, blockOf]
  omega

/-! ## The map that a set of tables stands for -/

/-- The tables of the pool in use, by the entry of the L1 table that points to each, and the map that
they hold. -/
structure Slots (s : TableAddrs) (t : Tables) (m : ℕ → ℕ) (slot : Fin 512 → Option (Fin l2Tables)) :
    Prop where
  inj : ∀ i j k, slot i = some k → slot j = some k → i = j
  lt : ∀ i k, slot i = some k → k.val < t.nextL2
  next : t.nextL2 = (Finset.univ.filter fun i => (slot i).isSome).card
  unused : ∀ i, slot i = none → t.l1 i = 0 ∧ ∀ j : Fin 512, m (i.val * 512 + j.val) = 0
  used : ∀ i k, slot i = some k → t.l1 i = tableDesc (virtToPhys (s.poolVa k)) ∧
    ∀ j : Fin 512, t.pool k j = m (i.val * 512 + j.val)

/-- The set of tables stands for a map from block numbers to descriptors. -/
def Represents (s : TableAddrs) (t : Tables) (m : ℕ → ℕ) : Prop := ∃ slot, Slots s t m slot

namespace Slots

variable {s : TableAddrs} {t : Tables} {m : ℕ → ℕ} {slot : Fin 512 → Option (Fin l2Tables)}

/-- While an entry of the L1 table is unused, there is an unused table in the pool. -/
theorem next_lt (h : Slots s t m slot) {i : Fin 512} (hi : slot i = none) : t.nextL2 < l2Tables := by
  have hsub : (Finset.univ.filter fun i => (slot i).isSome) ⊆ Finset.univ.erase i := by
    intro j hj
    rw [Finset.mem_erase]
    refine ⟨?_, Finset.mem_univ j⟩
    rintro rfl
    simp [hi] at hj
  have hcard := Finset.card_le_card hsub
  rw [Finset.card_erase_of_mem (Finset.mem_univ i), Finset.card_univ, Fintype.card_fin,
    ← h.next] at hcard
  exact hcard.trans_lt (by decide)

/-- An entry of the L1 table with the next table of the pool. -/
theorem extend (h : Slots s t m slot) {i : Fin 512} (hi : slot i = none) (k : Fin l2Tables)
    (hk : k.val = t.nextL2) :
    Slots s { t with
      nextL2 := t.nextL2 + 1
      pool := Function.update t.pool k fun _ => 0
      l1 := Function.update t.l1 i (tableDesc (virtToPhys (s.poolVa k))) } m
      (Function.update slot i (some k)) := by
  -- No entry points to the new table yet.
  have hnew : ∀ j, slot j ≠ some k := by
    intro j hj
    have := h.lt j k hj
    omega
  have hset : (Finset.univ.filter fun j => (Function.update slot i (some k) j).isSome) =
      insert i (Finset.univ.filter fun j => (slot j).isSome) := by
    ext j
    rw [Finset.mem_insert, Finset.mem_filter, Finset.mem_filter]
    by_cases hj : j = i
    · simp [hj]
    · simp [hj]
  constructor
  · intro a b c ha hb
    by_cases hai : a = i <;> by_cases hbi : b = i
    · rw [hai, hbi]
    · subst hai
      rw [Function.update_self] at ha
      rw [Function.update_of_ne hbi] at hb
      exact absurd (hb.trans ha.symm) (hnew b)
    · subst hbi
      rw [Function.update_self] at hb
      rw [Function.update_of_ne hai] at ha
      exact absurd (ha.trans hb.symm) (hnew a)
    · rw [Function.update_of_ne hai] at ha
      rw [Function.update_of_ne hbi] at hb
      exact h.inj a b c ha hb
  · intro a c ha
    by_cases hai : a = i
    · subst hai
      rw [Function.update_self] at ha
      cases ha
      show k.val < t.nextL2 + 1
      omega
    · rw [Function.update_of_ne hai] at ha
      exact (h.lt a c ha).trans (Nat.lt_succ_self _)
  · show t.nextL2 + 1 = _
    rw [hset, Finset.card_insert_of_notMem (by simp [hi]), h.next]
  · intro a ha
    have hai : a ≠ i := by
      rintro rfl
      rw [Function.update_self] at ha
      cases ha
    rw [Function.update_of_ne hai] at ha
    show Function.update t.l1 i _ a = 0 ∧ _
    rw [Function.update_of_ne hai]
    exact h.unused a ha
  · intro a c ha
    show Function.update t.l1 i _ a = _ ∧ ∀ j, Function.update t.pool k _ c j = _
    by_cases hai : a = i
    · subst hai
      rw [Function.update_self] at ha
      cases ha
      rw [Function.update_self, Function.update_self]
      exact ⟨rfl, fun j => ((h.unused a hi).2 j).symm⟩
    · rw [Function.update_of_ne hai] at ha ⊢
      have hck : c ≠ k := fun hck => hnew a (hck ▸ ha)
      rw [Function.update_of_ne hck]
      exact h.used a c ha

/-- A write to the table of an L1 entry. -/
theorem write (h : Slots s t m slot) {i : Fin 512} {k : Fin l2Tables} (hi : slot i = some k)
    (j : Fin 512) (desc : ℕ) :
    Slots s { t with pool := Function.update t.pool k (Function.update (t.pool k) j desc) }
      (Function.update m (i.val * 512 + j.val) desc) slot := by
  refine ⟨h.inj, h.lt, h.next, ?_, ?_⟩
  · intro a ha
    refine ⟨(h.unused a ha).1, fun b => ?_⟩
    have hne : a.val * 512 + b.val ≠ i.val * 512 + j.val := by
      intro heq
      have hai : a = i := Fin.ext (by omega)
      rw [hai, hi] at ha
      cases ha
    rw [Function.update_of_ne hne]
    exact (h.unused a ha).2 b
  · intro a c ha
    obtain ⟨hl1, hpool⟩ := h.used a c ha
    refine ⟨hl1, fun b => ?_⟩
    show Function.update t.pool k _ c b = _
    by_cases hck : c = k
    · subst hck
      have hai : a = i := h.inj a i c ha hi
      subst hai
      rw [Function.update_self]
      by_cases hbj : b = j
      · rw [hbj, Function.update_self, Function.update_self]
      · have hne : a.val * 512 + b.val ≠ a.val * 512 + j.val := by
          intro heq
          exact hbj (Fin.ext (by omega))
        rw [Function.update_of_ne hbj, Function.update_of_ne hne]
        exact hpool b
    -- another table is of another L1 entry, so the entry written is not one of its
    · have hne : a.val * 512 + b.val ≠ i.val * 512 + j.val := by
        intro heq
        have hai : a = i := Fin.ext (by omega)
        rw [hai, hi] at ha
        exact hck (Option.some.inj ha).symm
      rw [Function.update_of_ne hck, Function.update_of_ne hne]
      exact hpool b

/-- `get_l2_table_with` finds the table of an L1 entry, or takes one for it. -/
theorem getL2TableWith_ok (h : Slots s t m slot) (i : Fin 512) :
    ∃ k t' slot', getL2TableWith s t i = .ok (k, t') ∧ t'.l0 = t.l0 ∧ Slots s t' m slot' ∧
      slot' i = some k := by
  cases hi : slot i with
  | some k =>
    obtain ⟨hl1, -⟩ := h.used i k hi
    obtain ⟨hdesc, hptr⟩ := TableAddrs.tableDesc_pool (s := s) (k := k)
    refine ⟨k, t, slot, ?_, rfl, h, hi⟩
    unfold getL2TableWith
    simp only [hl1, if_pos hdesc, hptr]
  | none =>
    obtain ⟨hl1, -⟩ := h.unused i hi
    have hlt := h.next_lt hi
    refine ⟨⟨t.nextL2, hlt⟩, _, _, ?_, ?_, h.extend hi ⟨t.nextL2, hlt⟩ rfl, ?_⟩
    · rw [getL2TableWith, hl1, if_neg (by decide), dif_pos hlt]
    · rfl
    · rw [Function.update_self]

end Slots

/-- The L0 table is the same throughout `init`. -/
theorem freshTables_l0 (s : TableAddrs) (root : Root) : (freshTables s root).l0 =
    Function.update (fun _ => 0) (l0Index root) (tableDesc (virtToPhys s.l1)) := rfl

/-- Tables in which nothing is mapped. -/
theorem represents_fresh (s : TableAddrs) (root : Root) :
    Represents s (freshTables s root) fun _ => 0 :=
  ⟨fun _ => none, nofun, nofun, by simp [freshTables], fun _ _ => ⟨rfl, fun _ => rfl⟩, nofun⟩

/-- `map_block_with` always returns, and writes a descriptor for one block. -/
theorem mapBlockWith_ok {s : TableAddrs} {t : Tables} {m : ℕ → ℕ} (h : Represents s t m)
    (vaddr desc : ℕ) :
    ∃ t', mapBlockWith s t vaddr desc = .ok t' ∧ t'.l0 = t.l0 ∧
      Represents s t' (Function.update m (blockOf vaddr) desc) := by
  obtain ⟨slot, hslot⟩ := h
  obtain ⟨k, t₁, slot', hget, hl0, hslot', hk⟩ := hslot.getL2TableWith_ok (tableIndex vaddr 30)
  have hwrite := hslot'.write hk (tableIndex vaddr 21) desc
  rw [tableIndex_blockOf] at hwrite
  refine ⟨_, ?_, ?_, slot', hwrite⟩
  · rw [mapBlockWith, hget]
    rfl
  · exact hl0

namespace MapCall

/-- The number of the block that a call maps in its step `i`. -/
def block (c : MapCall) (i : ℕ) : ℕ := blockOf (wadd c.vaddr (wmul i blockSize))

/-- What a call writes. -/
def writes (c : MapCall) : List (ℕ × ℕ) := (List.range c.blocks).map fun i => (c.block i, c.desc i)

/-- The call maps the block. -/
def Covers (c : MapCall) (b : ℕ) : Prop := ∃ i < c.blocks, c.block i = b

instance (c : MapCall) (b : ℕ) : Decidable (c.Covers b) := by
  unfold Covers
  infer_instance

/-- The writes of a call, one by one. -/
theorem mem_writes {c : MapCall} {w : ℕ × ℕ} :
    w ∈ c.writes ↔ ∃ i < c.blocks, w = (c.block i, c.desc i) := by
  simp [writes, eq_comm]

/-- `map_range_with` always returns, and does the writes of the call. -/
theorem run_ok (c : MapCall) {s : TableAddrs} {t : Tables} {m : ℕ → ℕ} (h : Represents s t m) :
    ∃ t', c.run s t = .ok t' ∧ t'.l0 = t.l0 ∧ Represents s t' (applyWrites m c.writes) := by
  have hloop := Exec.forRange_ok (i := 0) (n := c.blocks) (s := t)
    (f := fun i t => mapBlockWith s t (wadd c.vaddr (wmul i blockSize)) (c.desc i))
    (P := fun n t' => t'.l0 = t.l0 ∧ Represents s t'
      (applyWrites m ((List.range n).map fun i => (c.block i, c.desc i)))) ⟨rfl, h⟩ ?_
  · rwa [Nat.zero_add] at hloop
  · rintro n t₁ - - ⟨hl0, ht₁⟩
    obtain ⟨t₂, hrun, hl0', ht₂⟩ :=
      mapBlockWith_ok ht₁ (wadd c.vaddr (wmul n blockSize)) (c.desc n)
    refine ⟨t₂, hrun, hl0'.trans hl0, ?_⟩
    rw [List.range_succ, List.map_append, List.map_singleton, applyWrites_concat]
    exact ht₂

end MapCall

/-- What the calls for one set of tables write. -/
def writes (root : Root) (calls : List MapCall) : List (ℕ × ℕ) :=
  (calls.filter fun c => c.root = root).flatMap MapCall.writes

/-- The writes of calls after calls. -/
theorem writes_append (root : Root) (calls calls' : List MapCall) :
    writes root (calls ++ calls') = writes root calls ++ writes root calls' := by
  simp [writes]

/-- The writes of calls, one by one. -/
theorem mem_writes {root : Root} {calls : List MapCall} {w : ℕ × ℕ} :
    w ∈ writes root calls ↔
      ∃ c ∈ calls, c.root = root ∧ ∃ i < c.blocks, w = (c.block i, c.desc i) := by
  simp only [writes, List.mem_flatMap, List.mem_filter, decide_eq_true_eq, MapCall.mem_writes,
    and_assoc]

/-- The blocks that calls write to are those that one of them covers. -/
theorem mem_writes_fst {root : Root} {calls : List MapCall} {b : ℕ} :
    b ∈ (writes root calls).map Prod.fst ↔ ∃ c ∈ calls, c.root = root ∧ c.Covers b := by
  rw [List.mem_map]
  constructor
  · rintro ⟨w, hw, rfl⟩
    obtain ⟨c, hc, hroot, i, hi, rfl⟩ := mem_writes.mp hw
    exact ⟨c, hc, hroot, i, hi, rfl⟩
  · rintro ⟨c, hc, hroot, i, hi, rfl⟩
    exact ⟨(c.block i, c.desc i), mem_writes.mpr ⟨c, hc, hroot, i, hi, rfl⟩, rfl⟩

/-- Calls always return, and do their writes in order. -/
theorem runCalls_ok {s : Root → TableAddrs} (calls : List MapCall) {t : Root → Tables}
    {m : Root → ℕ → ℕ} (h : ∀ root, Represents (s root) (t root) (m root)) :
    ∃ t', runCalls s calls t = .ok t' ∧ ∀ root, (t' root).l0 = (t root).l0 ∧
      Represents (s root) (t' root) (applyWrites (m root) (writes root calls)) := by
  induction calls generalizing t m with
  | nil => exact ⟨t, rfl, fun root => ⟨rfl, h root⟩⟩
  | cons c calls ih =>
    obtain ⟨t₁, hrun, hl0, ht₁⟩ := c.run_ok (h c.root)
    obtain ⟨t₂, hruns, ht₂⟩ := ih (t := Function.update t c.root t₁)
      (m := Function.update m c.root (applyWrites (m c.root) c.writes)) fun root => by
        by_cases hroot : root = c.root
        · subst hroot
          rw [Function.update_self, Function.update_self]
          exact ht₁
        · rw [Function.update_of_ne hroot, Function.update_of_ne hroot]
          exact h root
    refine ⟨t₂, ?_, fun root => ?_⟩
    · show (c.run _ _ >>= _) >>= _ = _
      rw [hrun]
      exact hruns
    · obtain ⟨hl0', hrep⟩ := ht₂ root
      -- a call writes in its own root only
      rw [show writes root (c :: calls) = writes root [c] ++ writes root calls from
        writes_append root [c] calls, applyWrites_append]
      by_cases hroot : root = c.root
      · subst hroot
        rw [Function.update_self] at hl0' hrep
        rw [show writes c.root [c] = c.writes by simp [writes]]
        exact ⟨hl0'.trans hl0, hrep⟩
      · rw [Function.update_of_ne hroot] at hl0' hrep
        rw [show writes root [c] = [] by simp [writes, Ne.symm hroot]]
        exact ⟨hl0', hrep⟩

/-! ## The walk -/

/-- What a map from block numbers to descriptors has at an address. -/
def leafAt (m : ℕ → ℕ) (va : ℕ) : Option Leaf :=
  if m (blockOf va) = 0 then none
  else some ⟨(m (blockOf va) &&& 0x0000FFFFFFE00000) + va % 2^21, m (blockOf va)⟩

/-- Blocks are mapped by block descriptors or not at all. -/
def Blocks (m : ℕ → ℕ) : Prop := ∀ b, m b = 0 ∨ m b &&& 0b11 = descBlock

/-- The L2 step of a walk finds what the table has. -/
theorem walkL2_eq {table : PageTable} {m : ℕ → ℕ} (hm : Blocks m) {va : ℕ}
    (h : table (tableIndex va 21) = m (blockOf va)) : walkL2 table va = .ok (leafAt m va) := by
  unfold walkL2
  simp only [h]
  rcases hm (blockOf va) with hzero | hblock
  · rw [leafAt, if_pos hzero, hzero]
    rfl
  · have hne : m (blockOf va) ≠ 0 := by
      intro hzero
      rw [hzero] at hblock
      exact absurd hblock (by decide)
    have hor : (m (blockOf va) &&& 0x0000FFFFFFE00000) ||| (va &&& 0x1FFFFF) =
        (m (blockOf va) &&& 0x0000FFFFFFE00000) + va % 2^21 := by
      rw [show (0x1FFFFF : ℕ) = 2^21 - 1 by decide, and_lowMask,
        show (0x0000FFFFFFE00000 : ℕ) = 2^48 - 2^21 by decide, and_mask (by decide)]
      exact or_low (k := 21) (Nat.mul_mod_left _ _) (Nat.mod_lt _ (by decide))
    rw [if_pos hblock, hor, leafAt, if_neg hne]

/-- The L1 step of a walk finds what the tables hold. -/
theorem walkL1_eq {s : TableAddrs} {t : Tables} {m : ℕ → ℕ} (h : Represents s t m) (hm : Blocks m)
    (va : ℕ) : walkL1 s t va = .ok (leafAt m va) := by
  obtain ⟨slot, hslot⟩ := h
  cases hi : slot (tableIndex va 30) with
  | none =>
    obtain ⟨hl1, hzero⟩ := hslot.unused _ hi
    have hleaf := hzero (tableIndex va 21)
    rw [tableIndex_blockOf] at hleaf
    rw [leafAt, if_pos hleaf]
    simp only [walkL1, hl1]
    rfl
  | some k =>
    obtain ⟨hl1, hpool⟩ := hslot.used _ k hi
    obtain ⟨hdesc, hptr⟩ := TableAddrs.tableDesc_pool (s := s) (k := k)
    have hentry := hpool (tableIndex va 21)
    rw [tableIndex_blockOf] at hentry
    unfold walkL1
    simp only [hl1, hdesc, hptr]
    exact walkL2_eq hm hentry

/-- A walk finds what the tables hold, in the range of the one entry of the L0 table. -/
theorem walk_eq {s : TableAddrs} {root : Root} {t : Tables} {m : ℕ → ℕ} (h : Represents s t m)
    (hm : Blocks m) (hl0 : t.l0 = (freshTables s root).l0) (va : ℕ) :
    walk s t va = .ok (if tableIndex va 39 = l0Index root then leafAt m va else none) := by
  have hlt : virtToPhys s.l1 < 2^48 := (virtToPhys_lt s.l1_mem).trans (by decide)
  obtain ⟨hdesc, hpa⟩ := tableDesc_spec (virtToPhys_mod s.l1_mem s.l1_aligned) hlt
  unfold walk
  rw [hl0]
  by_cases hidx : tableIndex va 39 = l0Index root
  · have hentry : (freshTables s root).l0 (tableIndex va 39) = tableDesc (virtToPhys s.l1) := by
      rw [hidx, freshTables_l0, Function.update_self]
    simp only [hentry]
    rw [if_pos hdesc, hpa, if_pos (physToVirt_virtToPhys s.l1_mem), if_pos hidx, walkL1_eq h hm]
  · have hentry : (freshTables s root).l0 (tableIndex va 39) = 0 := by
      rw [freshTables_l0, Function.update_of_ne hidx]
    simp only [hentry]
    rw [if_neg (by decide), if_neg hidx]

/-- The block of an address is the same in both windows. -/
theorem blockOf_virt (root : Root) (a : ℕ) : blockOf (root.virt a) = blockOf a := by
  cases root with
  | user => rfl
  | kernel =>
    show blockOf (wadd a kernelVirtBase) = blockOf a
    unfold blockOf wadd kernelVirtBase
    omega

/-- So is the offset in the block. -/
theorem virt_mod (root : Root) (a : ℕ) : root.virt a % 2^21 = a % 2^21 := by
  cases root with
  | user => rfl
  | kernel =>
    show wadd a kernelVirtBase % 2^21 = a % 2^21
    unfold wadd kernelVirtBase
    omega

/-- Both sets of tables have virtual addresses for the first 512 GiB. -/
theorem Root.lt_bits {a : ℕ} (ha : a < 2^39) (root : Root) : a < 2^root.bits := by
  cases root with
  | kernel => exact ha.trans (by decide)
  | user => exact ha.trans (by decide)

/-- The entry of the L0 table that `init` fills is for the first 512 GiB. -/
theorem tableIndex_virt {root : Root} {a : ℕ} (ha : a < 2^root.bits) :
    tableIndex (root.virt a) 39 = l0Index root ↔ a < 2^39 := by
  rw [Fin.ext_iff, tableIndex_val]
  cases root with
  | user =>
    show a / 2^39 % 512 = 0 ↔ _
    have : a < 2^48 := ha
    omega
  | kernel =>
    have : a < 2^47 := ha
    rw [show (l0Index .kernel).val = 256 by decide]
    show wadd a kernelVirtBase / 2^39 % 512 = 256 ↔ _
    unfold wadd kernelVirtBase
    omega

/-! ## `paging::init` -/

/-- What `init` leaves in a set of tables. -/
def pagingMap (board : Board) (map : NormalizedMap) (extra : ExtraMmio) (root : Root) : ℕ → ℕ :=
  applyWrites (fun _ => 0) (writes root (pagingCalls board map extra))

/-- The calls of `init`: for the regions that are not MMIO, and for the windows. -/
theorem mem_pagingCalls {board : Board} {map : NormalizedMap} {extra : ExtraMmio} {c : MapCall} :
    c ∈ pagingCalls board map extra ↔
      (∃ r ∈ map.regions, r.kind ≠ .mmio ∧ r.start < mappedEnd board r ∧
        ∃ root, c = ramCall board r root) ∨
      ∃ w ∈ windows board extra, ∃ root, c = w.call root := by
  have hroot : ∀ {f : Root → MapCall}, (∃ root, c = f root) ↔ c = f .kernel ∨ c = f .user := by
    intro f
    constructor
    · rintro ⟨root | root, h⟩
      · exact .inl h
      · exact .inr h
    · rintro (h | h)
      · exact ⟨_, h⟩
      · exact ⟨_, h⟩
  rw [pagingCalls, List.mem_append, List.mem_flatMap, List.mem_flatMap]
  refine or_congr (exists_congr fun r => and_congr_right fun hr => ?_)
    (exists_congr fun w => and_congr_right fun hw => ?_)
  · rw [hroot, regionCalls]
    by_cases hkind : r.kind = .mmio
    · simp [hkind]
    · by_cases hsize : mappedEnd board r - r.start = 0
      · have hle : ¬ r.start < mappedEnd board r := by omega
        simp [hsize, hle]
      · have hlt : r.start < mappedEnd board r := by omega
        simp [hkind, hsize, hlt]
  · rw [hroot, or_comm]
    simp

/-- The windows have memory attributes that the tables know. -/
theorem windows_fields {board : Board} {extra : ExtraMmio} {w : Window}
    (hw : w ∈ windows board extra) : (w.attr = attrDevice ∨ w.attr = attrNormal) ∧ w.sh < 4 := by
  rw [windows, List.mem_append] at hw
  rcases hw with hw | hw
  · have key : ∀ w ∈ boardWindows board, (w.attr = attrDevice ∨ w.attr = attrNormal) ∧ w.sh < 4 := by
      cases board with
      | rpi5 => decide
      | qemu => decide
    exact key w hw
  · split_ifs at hw with hsize
    · rw [List.mem_singleton.mp hw]
      exact ⟨.inl rfl, show shNone < 4 by decide⟩
    · cases hw

/-- The calls of `init` have fields of the widths that a descriptor has for them. -/
theorem pagingCalls_fields {board : Board} {map : NormalizedMap} {extra : ExtraMmio} {c : MapCall}
    (hc : c ∈ pagingCalls board map extra) : c.attr < 8 ∧ c.ap < 4 ∧ c.sh < 4 := by
  rcases mem_pagingCalls.mp hc with ⟨r, -, -, -, root, rfl⟩ | ⟨w, hw, root, rfl⟩
  · refine ⟨show attrNormal < 8 by decide, ?_, show shInner < 4 by decide⟩
    cases root with
    | kernel => exact (show apEl1Rw < 4 by decide)
    | user => exact (show apEl0Rw < 4 by decide)
  · obtain ⟨hattr, hsh⟩ := windows_fields hw
    refine ⟨?_, show apEl1Rw < 4 by decide, hsh⟩
    rcases hattr with hattr | hattr
    · exact hattr.trans_lt (by decide)
    · exact hattr.trans_lt (by decide)

/-- A block is mapped by a call that covers it, or not mapped. -/
theorem pagingMap_cases (board : Board) (map : NormalizedMap) (extra : ExtraMmio) (root : Root)
    (b : ℕ) : (pagingMap board map extra root b = 0 ∧
        ∀ c ∈ pagingCalls board map extra, c.root = root → ¬ c.Covers b) ∨
      ∃ c ∈ pagingCalls board map extra, c.root = root ∧ ∃ i < c.blocks, c.block i = b ∧
        pagingMap board map extra root b = c.desc i := by
  by_cases h : b ∈ (writes root (pagingCalls board map extra)).map Prod.fst
  · obtain ⟨c, hc, hroot, i, hi, heq⟩ := mem_writes.mp (applyWrites_of_mem (m := fun _ => 0) h)
    rw [Prod.mk.injEq] at heq
    exact .inr ⟨c, hc, hroot, i, hi, heq.1.symm, heq.2⟩
  · refine .inl ⟨applyWrites_of_notMem h, fun c hc hroot hcov => h ?_⟩
    exact mem_writes_fst.mpr ⟨c, hc, hroot, hcov⟩

/-- `init` maps blocks by block descriptors. -/
theorem pagingMap_blocks (board : Board) (map : NormalizedMap) (extra : ExtraMmio) (root : Root) :
    Blocks (pagingMap board map extra root) := by
  intro b
  rcases pagingMap_cases board map extra root b with ⟨hzero, -⟩ | ⟨c, hc, -, i, -, -, heq⟩
  · exact .inl hzero
  · obtain ⟨hattr, hap, hsh⟩ := pagingCalls_fields hc
    rw [heq]
    exact .inr (blockDesc_spec hattr hap hsh _ _).1

/-- `init` never waits for a table, and a walk finds what the last call that covers a block has
written there. -/
theorem pagingInit_ok (s : Root → TableAddrs) (board : Board) (map : NormalizedMap)
    (extra : ExtraMmio) :
    ∃ t, pagingInit s board map extra = .ok t ∧ ∀ root va, walk (s root) (t root) va =
      .ok (if tableIndex va 39 = l0Index root then leafAt (pagingMap board map extra root) va
        else none) := by
  obtain ⟨t, hrun, ht⟩ := runCalls_ok (s := s) (pagingCalls board map extra)
    (t := fun root => freshTables (s root) root) (m := fun _ _ => 0)
    fun root => represents_fresh (s root) root
  refine ⟨t, hrun, fun root va => ?_⟩
  obtain ⟨hl0, hrep⟩ := ht root
  exact walk_eq hrep (pagingMap_blocks board map extra root) hl0 va

end Ralix.Mm
