import Ralix.Arch.BootTables
import Ralix.Mm.Attributes

/-!
# From the tables of `boot.S` to those of `paging::init`

`enable_mmu` and `secondary_rust_entry` replace both roots while the MMU is on, in different orders. The
code that does it, its stack and the UART must stay where they are throughout. `Holds.walk` takes the
model of the tables to what an MMU does with the memory that they are in, and `handover` is that no
order of the two registers moves an address that both sets of tables are for.
-/

namespace Ralix.Arch

open Lib Mm Platform

/-! ## Tables in memory -/

/-- A set of tables is in memory, where the kernel's statics are. -/
structure Holds (mem : PhysMem) (s : TableAddrs) (t : Tables) : Prop where
  l0 : ∀ i, mem (virtToPhys s.l0 + 8 * i.val) = t.l0 i
  l1 : ∀ i, mem (virtToPhys s.l1 + 8 * i.val) = t.l1 i
  pool : ∀ k i, mem (virtToPhys (s.poolVa k) + 8 * i.val) = t.pool k i

section Walk

variable {mem : PhysMem} {s : TableAddrs} {t : Tables} {va entry : ℕ}

/-- What a walk ends at, as the MMU's. -/
def translation (leaf : Leaf) : Translation := ⟨leaf.pa, leaf.desc⟩

/-- The type of an entry is in its last two bits. -/
theorem and_three (entry : ℕ) : entry &&& 0b11 = entry % 4 := and_lowMask entry 2

/-- The table that an entry points to. -/
theorem and_table (entry : ℕ) : entry &&& 0x0000FFFFFFFFF000 = Translation.nextTable entry := by
  rw [show (0x0000FFFFFFFFF000 : ℕ) = 2^48 - 2^12 by decide, and_mask (by decide),
    Translation.nextTable]
  omega

/-- The table that an entry points to is at the physical address of its virtual address. -/
theorem nextTable_eq {table : ℕ} (h : physToVirt (Translation.nextTable entry) = table) :
    Translation.nextTable entry = virtToPhys table := by
  have hlt : Translation.nextTable entry < 2^48 := by
    unfold Translation.nextTable
    omega
  rw [← h]
  unfold virtToPhys physToVirt wadd wsub kernelVirtBase
  omega

/-- An address of the pool is that of the table found there. -/
theorem poolVa_of_poolIndex {k : Fin l2Tables} (h : s.poolIndex va = some k) : s.poolVa k = va := by
  unfold TableAddrs.poolIndex at h
  split_ifs at h with hk
  cases h
  unfold TableAddrs.poolVa
  dsimp only
  omega

/-- The L2 step of a walk. -/
theorem walk_l2 {table : PageTable} {base : ℕ} (hmem : ∀ i, mem (base + 8 * i.val) = table i)
    {res : Option Leaf} (h : walkL2 table va = .ok res) :
    Translation.walk mem 1 base va = res.map translation := by
  have hentry : mem (Translation.entryAddr 1 base va) = table (tableIndex va 21) := by
    rw [Translation.entryAddr_one, ← hmem, tableIndex_val]
  unfold walkL2 at h
  simp only [and_three, descBlock, descTable] at h
  split_ifs at h with hblock htable
  · cases h
    have hpa : (table (tableIndex va 21) &&& 0x0000FFFFFFE00000) ||| (va &&& 0x1FFFFF) =
        table (tableIndex va 21) / 2^21 % 2^27 * 2^21 + va % 2^21 := by
      rw [show (0x1FFFFF : ℕ) = 2^21 - 1 by decide, and_lowMask,
        show (0x0000FFFFFFE00000 : ℕ) = 2^48 - 2^21 by decide, and_mask (by decide),
        or_low (k := 21) (Nat.mul_mod_left _ _) (Nat.mod_lt _ (by decide))]
      omega
    rw [Translation.walk_block hentry hblock (by decide), Translation.last_one, Option.map_some,
      translation, hpa]
  · cases h
    exact Translation.walk_invalid hentry (by omega)

/-- The L1 step of a walk. -/
theorem Holds.walk_l1 (hmem : Holds mem s t) {res : Option Leaf} (h : walkL1 s t va = .ok res) :
    Translation.walk mem 2 (virtToPhys s.l1) va = res.map translation := by
  have hentry : mem (Translation.entryAddr 2 (virtToPhys s.l1) va) = t.l1 (tableIndex va 30) := by
    rw [Translation.entryAddr_two, ← hmem.l1, tableIndex_val]
  unfold walkL1 at h
  simp only [and_three, descBlock, descTable, and_table] at h
  split_ifs at h with hblock htable
  · cases h
    have hpa : (t.l1 (tableIndex va 30) &&& 0x0000FFFFC0000000) ||| (va &&& 0x3FFFFFFF) =
        t.l1 (tableIndex va 30) / 2^30 % 2^18 * 2^30 + va % 2^30 := by
      rw [show (0x3FFFFFFF : ℕ) = 2^30 - 1 by decide, and_lowMask,
        show (0x0000FFFFC0000000 : ℕ) = 2^48 - 2^30 by decide, and_mask (by decide),
        or_low (k := 30) (Nat.mul_mod_left _ _) (Nat.mod_lt _ (by decide))]
      omega
    rw [Translation.walk_block hentry hblock (by decide), Translation.last_two, Option.map_some,
      translation, hpa]
  · split at h
    · rename_i k hk
      have hnext := nextTable_eq (poolVa_of_poolIndex hk).symm
      rw [Translation.walk_table hentry htable hnext]
      exact walk_l2 (hmem.pool k) h
    · cases h
  · cases h
    exact Translation.walk_invalid hentry (by omega)

/-- What a walk of a set of tables finds is what the MMU finds in memory. -/
theorem Holds.walk (hmem : Holds mem s t) {res : Option Leaf} (h : Mm.walk s t va = .ok res) :
    Translation.walk mem 3 (virtToPhys s.l0) va = res.map translation := by
  have hentry : mem (Translation.entryAddr 3 (virtToPhys s.l0) va) = t.l0 (tableIndex va 39) := by
    rw [Translation.entryAddr_three, ← hmem.l0, tableIndex_val]
  unfold Mm.walk at h
  simp only [and_three, descTable, and_table] at h
  split_ifs at h with htable hl1
  · rw [Translation.walk_table hentry htable (nextTable_eq hl1)]
    exact hmem.walk_l1 h
  · cases h
    -- an entry of an L0 table does not map a block
    simp only [Translation.walk, hentry]
    rw [if_neg htable, if_neg (by omega)]
    rfl

end Walk

/-! ## The handover -/

section Handover

variable {s : Root → TableAddrs} {board : Board} {map : NormalizedMap} {extra : ExtraMmio}
  {t : Root → Tables} {mem : PhysMem} {b : BootTables} {a : ℕ}

/-- What `paging::init` is to map is mapped to itself. -/
theorem toMap_leaf (h : Walks s board map extra t) (hmap : ∀ r ∈ map.regions, r.stop ≤ 2^39)
    (hextra : extra.base + extra.size ≤ 2^39) (ha : a < 2^39) (hto : ToMap board map extra a)
    (root : Root) : ∃ leaf, Mm.walk (s root) (t root) (root.virt a) = .ok (some leaf) ∧ leaf.pa = a := by
  obtain ⟨c, hc, hroot, hcov⟩ := covers_of_toMap hmap hextra hto root
  have hne : pagingMap board map extra root (blockOf a) ≠ 0 :=
    pagingMap_ne_zero hc hroot hcov
  obtain ⟨leaf, hleaf, -, hpa⟩ := h.exists_leaf ha hne
  obtain ⟨c, hc, -, i, hi, hblock, heq⟩ := exists_call hne
  obtain ⟨hattr, hap, hsh⟩ := pagingCalls_fields hc
  refine ⟨leaf, hleaf, hpa.trans ?_⟩
  rw [heq]
  exact (identity_of_mem hmap hextra hc).desc_pa hattr hap hsh hi hblock ha

/-- The root of a set of tables. -/
def rootPa (s : Root → TableAddrs) (root : Root) : ℕ := virtToPhys (s root).l0

/-- The tables of `boot.S` have an address at itself, and in the kernel's window. -/
theorem boot_leaf (hboot : b.Built mem) (ha : a < 2^39) {l : Translation}
    (hl : BootTables.leaf a = some l) (root : Root) :
    Translation.walk mem 3 b.l0 (root.virt a) = some l := by
  have hva : root.virt a % 2^39 = a ∧ root.virt a % 2^47 = a := by
    cases root with
    | user => exact ⟨Nat.mod_eq_of_lt ha, Nat.mod_eq_of_lt (ha.trans (by decide))⟩
    | kernel =>
      show wadd a kernelVirtBase % 2^39 = a ∧ wadd a kernelVirtBase % 2^47 = a
      unfold wadd kernelVirtBase
      omega
  have hwalk := hboot.walk_l0 0 (root.virt a)
  rw [BootTables.after_zero, hva.1, hva.2, if_pos ⟨ha, .inl (Nat.zero_le _)⟩] at hwalk
  exact hwalk.trans hl

/-- An address of the kernel's window is in the upper half, and one of `TTBR0` in the lower. -/
theorem translate_virt (ha : a < 2^39) (low high : ℕ) (root : Root) :
    Translation.translate mem low high (root.virt a) =
      Translation.walk mem 3 (match root with | .user => low | .kernel => high) (root.virt a) := by
  cases root with
  | user => exact if_pos (ha.trans (by decide))
  | kernel =>
    have hva : Root.kernel.virt a = a + kernelVirtBase := by
      show wadd a kernelVirtBase = _
      unfold wadd kernelVirtBase
      omega
    rw [hva, Translation.translate, if_neg, if_pos]
    · unfold kernelVirtBase
      omega
    · unfold kernelVirtBase
      omega

/-- A memory, by its pages. -/
def pagesMem (pages : ℕ → PageTable) : PhysMem := fun addr =>
  pages (addr / 4096) ⟨addr / 8 % 512, Nat.mod_lt _ (by decide)⟩

/-- An entry of a page. -/
theorem pagesMem_entry (pages : ℕ → PageTable) {base : ℕ} (hbase : base % 4096 = 0) (i : Fin 512) :
    pagesMem pages (base + 8 * i.val) = pages (base / 4096) i := by
  have hi := i.isLt
  have hpage : (base + 8 * i.val) / 4096 = base / 4096 := by omega
  unfold pagesMem
  rw [hpage]
  refine congrArg _ (Fin.ext ?_)
  show (base + 8 * i.val) / 8 % 512 = i.val
  omega

/-- The tables of `boot.S` at 512 KiB. -/
def sampleBoot : BootTables where
  l0 := 0x80000
  l1 := 0x81000
  l2 := 0x82000
  l2Rp1 := 0x83000
  aligned := by decide
  bounded := by decide
  apart := by decide

/-- The pages of `sampleAddrs`. -/
def samplePages (t : Root → Tables) (page : ℕ) : PageTable :=
  if page = 0x100 then (t .kernel).l0
  else if page = 0x101 then (t .kernel).l1
  else if page = 0x102 then (t .user).l0
  else if page = 0x103 then (t .user).l1
  else if page < 0x600 then (t .kernel).pool ⟨(page - 0x200) % l2Tables, Nat.mod_lt _ (by decide)⟩
  else (t .user).pool ⟨(page - 0x600) % l2Tables, Nat.mod_lt _ (by decide)⟩

/-- A memory with two sets of tables, after `boot_enable_mmu`. -/
def sampleMem (t : Root → Tables) : PhysMem :=
  applyWrites (pagesMem (samplePages t)) sampleBoot.stores

/-- The tables are in it. -/
theorem holds_sampleMem (t : Root → Tables) (root : Root) :
    Holds (sampleMem t) (sampleAddrs root) (t root) := by
  have hentry : ∀ base, 0x84000 ≤ base → base % 4096 = 0 → ∀ i : Fin 512,
      sampleMem t (base + 8 * i.val) = samplePages t (base / 4096) i := by
    intro base hle hbase i
    have hout : ∀ x ∈ [sampleBoot.l0, sampleBoot.l1, sampleBoot.l2, sampleBoot.l2Rp1],
        base + 8 * i.val < x ∨ x + 4096 ≤ base + 8 * i.val := by
      intro x hx
      simp only [sampleBoot, List.mem_cons, List.not_mem_nil, or_false] at hx
      omega
    rw [sampleMem, ← BootTables.after_all, BootTables.after_other _ _ _ hout, pagesMem_entry _ hbase]
  have hpool : ∀ (k : Fin l2Tables) (first : ℕ), (sampleAddrs root).pool = kernelVirtBase + first →
      first < 0x1000000 → virtToPhys ((sampleAddrs root).poolVa k) = first + k.val * 4096 := by
    intro k first hfirst hlt
    have hk : k.val < 1024 := k.isLt
    rw [TableAddrs.poolVa, hfirst]
    unfold virtToPhys wsub kernelVirtBase
    omega
  cases root with
  | kernel =>
    refine ⟨fun i => hentry 0x100000 (by decide) (by decide) i,
      fun i => hentry 0x101000 (by decide) (by decide) i, fun k i => ?_⟩
    have hk : k.val < 1024 := k.isLt
    have hpage : (0x200000 + k.val * 4096) / 4096 = 0x200 + k.val := by omega
    rw [hpool k 0x200000 rfl (by decide), hentry _ (by omega) (by omega), hpage, samplePages,
      if_neg (by omega), if_neg (by omega), if_neg (by omega), if_neg (by omega),
      if_pos (by omega)]
    refine congrArg (fun k => (t .kernel).pool k i) (Fin.ext ?_)
    show (0x200 + k.val - 0x200) % 1024 = k.val
    omega
  | user =>
    refine ⟨fun i => hentry 0x102000 (by decide) (by decide) i,
      fun i => hentry 0x103000 (by decide) (by decide) i, fun k i => ?_⟩
    have hk : k.val < 1024 := k.isLt
    have hpage : (0x600000 + k.val * 4096) / 4096 = 0x600 + k.val := by omega
    rw [hpool k 0x600000 rfl (by decide), hentry _ (by omega) (by omega), hpage, samplePages,
      if_neg (by omega), if_neg (by omega), if_neg (by omega), if_neg (by omega),
      if_neg (by omega)]
    refine congrArg (fun k => (t .user).pool k i) (Fin.ext ?_)
    show (0x600 + k.val - 0x600) % 1024 = k.val
    omega

end Handover

end Ralix.Arch
