import Ralix.Lib.Translation
import Ralix.Lib.Writes
import Ralix.Mm.Paging

/-!
# The page tables of `boot.S`

`boot_enable_mmu` zeroes three tables and fills four, with the MMU off, and then makes them both roots.
`BootTables.stores` are its stores, in order. The first GiB of physical memory is at its own addresses
and in the kernel's window, in blocks of 2 MiB, of which those from 0x3F000000 on are device memory, and
so is the window of the RP1.

Every CPU calls it, for the same four tables. `translate_boot` is what the tables map, whatever was in
memory. `translate_rebuild` is what they map while a CPU builds them again.
-/

namespace Ralix.Arch

open Lib Mm Platform Translation

/-- Where the tables are, as physical addresses. -/
structure BootTables where
  l0 : ℕ
  l1 : ℕ
  l2 : ℕ
  l2Rp1 : ℕ
  aligned : l0 % 4096 = 0 ∧ l1 % 4096 = 0 ∧ l2 % 4096 = 0 ∧ l2Rp1 % 4096 = 0
  bounded : l1 < 2^48 ∧ l2 < 2^48 ∧ l2Rp1 < 2^48
  apart : l0 ≠ l1 ∧ l0 ≠ l2 ∧ l0 ≠ l2Rp1 ∧ l1 ≠ l2 ∧ l1 ≠ l2Rp1 ∧ l2 ≠ l2Rp1

/-- The block `i` of the first GiB: attribute 1 and inner shareable, or attribute 0 for the peripherals,
and the access flag. -/
def bootBlock (i : ℕ) : ℕ := (if i < 0x1F8 then 0x705 else 0x401) ||| i <<< 21

/-- The block `i` of the RP1. -/
def rp1Block (i : ℕ) : ℕ := 0x401 ||| (0x1c <<< 32 + i <<< 21)

namespace BootTables

/-- The stores of `boot_enable_mmu`. -/
def stores (b : BootTables) : List (ℕ × ℕ) :=
  fillWords b.l0 512 (fun _ => 0) ++ fillWords b.l1 512 (fun _ => 0) ++
    fillWords b.l2 512 (fun _ => 0) ++
    [(b.l0 + 8 * 0, b.l1 ||| 3)] ++ [(b.l0 + 8 * 256, b.l1 ||| 3)] ++
    [(b.l1 + 8 * 0, b.l2 ||| 3)] ++ [(b.l1 + 8 * 0x70, b.l2Rp1 ||| 3)] ++
    fillWords b.l2 512 bootBlock ++ fillWords b.l2Rp1 512 rp1Block

/-- The memory after the first `n` stores. -/
def after (b : BootTables) (mem : PhysMem) (n : ℕ) : PhysMem := applyWrites mem (b.stores.take n)

variable {b : BootTables} {mem : PhysMem} {n i : ℕ}

/-- Before the first store. -/
theorem after_zero (b : BootTables) (mem : PhysMem) : b.after mem 0 = mem := by
  rw [after, List.take_zero]
  rfl

/-- The memory after some of the stores, loop by loop. -/
theorem after_eq (b : BootTables) (mem : PhysMem) (n : ℕ) : b.after mem n =
    applyWrites (applyWrites (applyWrites (applyWrites (applyWrites (applyWrites (applyWrites
      (applyWrites (applyWrites mem
        (fillWords b.l0 (min n 512) fun _ => 0))
        (fillWords b.l1 (min (n - 512) 512) fun _ => 0))
        (fillWords b.l2 (min (n - 1024) 512) fun _ => 0))
        ([(b.l0 + 8 * 0, b.l1 ||| 3)].take (n - 1536)))
        ([(b.l0 + 8 * 256, b.l1 ||| 3)].take (n - 1537)))
        ([(b.l1 + 8 * 0, b.l2 ||| 3)].take (n - 1538)))
        ([(b.l1 + 8 * 0x70, b.l2Rp1 ||| 3)].take (n - 1539)))
        (fillWords b.l2 (min (n - 1540) 512) bootBlock))
        (fillWords b.l2Rp1 (min (n - 2052) 512) rp1Block) := by
  unfold after stores
  simp only [List.take_append, applyWrites_append, take_fillWords, List.length_append,
    length_fillWords, List.length_singleton]

/-- One store, if it is among those that were made. -/
theorem applyWrites_take_one (mem : PhysMem) (k v m addr : ℕ) :
    applyWrites mem ([(k, v)].take m) addr = if addr = k ∧ 0 < m then v else mem addr := by
  cases m with
  | zero => simp [applyWrites]
  | succ m => by_cases h : addr = k <;> simp [applyWrites, h]

/-- A pointer to a table, as it is built with `orr`. -/
theorem or_three {t : ℕ} (ht : t % 4096 = 0) : t ||| 3 = t + 3 := by
  rw [show t = 2^12 * (t / 4096) by omega]
  exact (Nat.two_pow_add_eq_or_of_lt (by decide) _).symm

section Cells

variable {mem : PhysMem} {t t' n i k : ℕ}

/-- A loop over another table leaves a word as it is. -/
theorem fill_other {f : ℕ → ℕ} (ht : t % 4096 = 0) (ht' : t' % 4096 = 0) (hne : t ≠ t')
    (hi : i < 512) : applyWrites mem (fillWords t' (min k 512) f) (t + 8 * i) = mem (t + 8 * i) :=
  applyWrites_fillWords_of_ne fun j hj => by omega

/-- So does a store to another table. -/
theorem store_other {j v : ℕ} (ht : t % 4096 = 0) (ht' : t' % 4096 = 0) (hne : t ≠ t')
    (hi : i < 512) (hj : j < 512) :
    applyWrites mem ([(t' + 8 * j, v)].take k) (t + 8 * i) = mem (t + 8 * i) := by
  rw [applyWrites_take_one, if_neg (by omega)]

/-- A word of the L0 table. -/
theorem after_l0 (b : BootTables) (mem : PhysMem) (n : ℕ) (hi : i < 512) :
    b.after mem n (b.l0 + 8 * i) =
      if i = 256 ∧ 1537 < n ∨ i = 0 ∧ 1536 < n then b.l1 + 3
      else if i < n then 0 else mem (b.l0 + 8 * i) := by
  have hal := b.aligned
  have hap := b.apart
  rw [after_eq, fill_other (by omega) (by omega) (by omega) hi,
    fill_other (by omega) (by omega) (by omega) hi,
    store_other (j := 0x70) (by omega) (by omega) (by omega) hi (by omega),
    store_other (j := 0) (by omega) (by omega) (by omega) hi (by omega),
    applyWrites_take_one, applyWrites_take_one, or_three (by omega),
    fill_other (by omega) (by omega) (by omega) hi, fill_other (by omega) (by omega) (by omega) hi,
    applyWrites_fillWords_eq]
  split_ifs <;> omega

/-- A word of the L1 table. -/
theorem after_l1 (b : BootTables) (mem : PhysMem) (n : ℕ) (hi : i < 512) :
    b.after mem n (b.l1 + 8 * i) =
      if i = 0x70 ∧ 1539 < n then b.l2Rp1 + 3
      else if i = 0 ∧ 1538 < n then b.l2 + 3
      else if 512 + i < n then 0 else mem (b.l1 + 8 * i) := by
  have hal := b.aligned
  have hap := b.apart
  rw [after_eq, fill_other (by omega) (by omega) (by omega) hi,
    fill_other (by omega) (by omega) (by omega) hi, applyWrites_take_one, applyWrites_take_one,
    or_three (by omega), or_three (by omega),
    store_other (j := 256) (by omega) (by omega) (by omega) hi (by omega),
    store_other (j := 0) (by omega) (by omega) (by omega) hi (by omega),
    fill_other (by omega) (by omega) (by omega) hi, applyWrites_fillWords_eq,
    fill_other (by omega) (by omega) (by omega) hi]
  split_ifs <;> omega

/-- A word of the L2 table. -/
theorem after_l2 (b : BootTables) (mem : PhysMem) (n : ℕ) (hi : i < 512) :
    b.after mem n (b.l2 + 8 * i) =
      if 1540 + i < n then bootBlock i else if 1024 + i < n then 0 else mem (b.l2 + 8 * i) := by
  have hal := b.aligned
  have hap := b.apart
  rw [after_eq, fill_other (by omega) (by omega) (by omega) hi, applyWrites_fillWords_eq,
    store_other (j := 0x70) (by omega) (by omega) (by omega) hi (by omega),
    store_other (j := 0) (by omega) (by omega) (by omega) hi (by omega),
    store_other (j := 256) (by omega) (by omega) (by omega) hi (by omega),
    store_other (j := 0) (by omega) (by omega) (by omega) hi (by omega),
    applyWrites_fillWords_eq, fill_other (by omega) (by omega) (by omega) hi,
    fill_other (by omega) (by omega) (by omega) hi]
  split_ifs <;> first | rfl | omega

/-- A word of the RP1's table, which is not zeroed. -/
theorem after_rp1 (b : BootTables) (mem : PhysMem) (n : ℕ) (hi : i < 512) :
    b.after mem n (b.l2Rp1 + 8 * i) =
      if 2052 + i < n then rp1Block i else mem (b.l2Rp1 + 8 * i) := by
  have hal := b.aligned
  have hap := b.apart
  rw [after_eq, applyWrites_fillWords_eq, fill_other (by omega) (by omega) (by omega) hi,
    store_other (j := 0x70) (by omega) (by omega) (by omega) hi (by omega),
    store_other (j := 0) (by omega) (by omega) (by omega) hi (by omega),
    store_other (j := 256) (by omega) (by omega) (by omega) hi (by omega),
    store_other (j := 0) (by omega) (by omega) (by omega) hi (by omega),
    fill_other (by omega) (by omega) (by omega) hi, fill_other (by omega) (by omega) (by omega) hi,
    fill_other (by omega) (by omega) (by omega) hi]
  split_ifs <;> first | rfl | omega

end Cells

/-- The number of stores. -/
theorem length_stores (b : BootTables) : b.stores.length = 2564 := by
  simp [stores]

/-- All the stores. -/
theorem after_all (b : BootTables) (mem : PhysMem) : b.after mem 2564 = applyWrites mem b.stores := by
  rw [after, ← b.length_stores, List.take_length]

/-- Nothing but the tables is written. -/
theorem after_other (b : BootTables) (mem : PhysMem) (n : ℕ) {addr : ℕ}
    (h : ∀ t ∈ [b.l0, b.l1, b.l2, b.l2Rp1], addr < t ∨ t + 4096 ≤ addr) :
    b.after mem n addr = mem addr := by
  refine applyWrites_of_notMem fun hmem => ?_
  obtain ⟨⟨k, v⟩, hkv, rfl⟩ := List.mem_map.mp hmem
  have hstore := List.mem_of_mem_take hkv
  simp only [List.forall_mem_cons] at h
  obtain ⟨h₀, h₁, h₂, h₃, -⟩ := h
  simp only [stores, fillWords, List.mem_append, List.mem_map, List.mem_range, List.mem_singleton,
    Prod.mk.injEq] at hstore
  omega

/-! ## What the tables map -/

/-- The tables are filled. -/
structure Built (b : BootTables) (mem : PhysMem) : Prop where
  l0 : ∀ i < 512, mem (b.l0 + 8 * i) = if i = 256 ∨ i = 0 then b.l1 + 3 else 0
  l1 : ∀ i < 512, mem (b.l1 + 8 * i) =
    if i = 0x70 then b.l2Rp1 + 3 else if i = 0 then b.l2 + 3 else 0
  l2 : ∀ i < 512, mem (b.l2 + 8 * i) = bootBlock i
  rp1 : ∀ i < 512, mem (b.l2Rp1 + 8 * i) = rp1Block i

/-- All the stores fill them. -/
theorem built_after (b : BootTables) (mem : PhysMem) : Built b (b.after mem 2564) where
  l0 i hi := by rw [after_l0 b mem _ hi]; simp [hi.trans (by decide : 512 < 2564)]
  l1 i hi := by
    rw [after_l1 b mem _ hi]
    simp [show 512 + i < 2564 by omega]
  l2 i hi := by rw [after_l2 b mem _ hi, if_pos (by omega)]
  rp1 i hi := by rw [after_rp1 b mem _ hi, if_pos (by omega)]

/-- A block descriptor, as the sum of its parts. -/
theorem or_shift {flags i : ℕ} (hflags : flags < 2^21) : flags ||| i <<< 21 = 2^21 * i + flags := by
  rw [Nat.shiftLeft_eq, Nat.or_comm, Nat.mul_comm, Nat.two_pow_add_eq_or_of_lt hflags]

/-- Where the boot tables lead from an address in the range of an L0 entry. -/
def leaf (a : ℕ) : Option Translation :=
  if a < 2^30 then some ⟨a, bootBlock (a / 2^21)⟩
  else if 0x1c00000000 ≤ a ∧ a < 0x1c40000000 then
    some ⟨a, rp1Block ((a - 0x1c00000000) / 2^21)⟩
  else none

/-- The last of the stores that an address needs. -/
def lastStore (a : ℕ) : ℕ := if a < 2^30 then 1540 + a / 2^21 else 1539

section Walks

variable {b : BootTables} {mem : PhysMem}

/-- A block of the first GiB. -/
theorem bootBlock_eq (i : ℕ) :
    bootBlock i = 2^21 * i + if i < 0x1F8 then 0x705 else 0x401 := by
  unfold bootBlock
  exact or_shift (by split <;> decide)

/-- A block of the RP1. -/
theorem rp1Block_eq (i : ℕ) : rp1Block i = 2^21 * (0xe000 + i) + 0x401 := by
  have hsum : (0x1c : ℕ) <<< 32 + i <<< 21 = (0xe000 + i) <<< 21 := by
    simp only [Nat.shiftLeft_eq]
    omega
  rw [rp1Block, hsum]
  exact or_shift (by decide)

/-- The L2 step of a walk in the first GiB. -/
theorem Built.walk_l2 (h : Built b mem) (n va : ℕ) (hva : va % 2^39 < 2^30) :
    walk (b.after mem n) 1 b.l2 va =
      if n ≤ 1024 + va % 2^39 / 2^21 ∨ lastStore (va % 2^39) < n then leaf (va % 2^39) else none := by
  obtain ⟨j, hj⟩ : ∃ j, va % 2^39 / 2^21 = j := ⟨_, rfl⟩
  have hi : j < 512 := by omega
  have hcell := after_l2 b mem n hi
  rw [h.l2 _ hi] at hcell
  have hentry : entryAddr 1 b.l2 va = b.l2 + 8 * j := by
    rw [entryAddr_one, show va / 2^21 % 512 = j by omega]
  rw [lastStore, leaf, if_pos hva, if_pos hva, hj]
  by_cases hlive : n ≤ 1024 + j ∨ 1540 + j < n
  · have hblock : b.after mem n (entryAddr 1 b.l2 va) = bootBlock j := by
      rw [hentry, hcell]
      split_ifs <;> first | rfl | omega
    have hdesc : bootBlock j % 4 = 1 := by
      rw [bootBlock_eq]
      split <;> omega
    have hpa : bootBlock j / 2^21 % 2^27 * 2^21 + va % 2^21 = va % 2^39 := by
      rw [bootBlock_eq]
      split <;> omega
    rw [if_pos hlive, walk_block hblock hdesc (by decide), last_one, hpa]
  · have hnone : b.after mem n (entryAddr 1 b.l2 va) = 0 := by
      rw [hentry, hcell]
      split_ifs <;> omega
    rw [if_neg hlive, walk_invalid hnone rfl]

/-- The L2 step of a walk in the window of the RP1. -/
theorem Built.walk_rp1 (h : Built b mem) (n va : ℕ) (hva : va / 2^30 % 512 = 0x70) :
    walk (b.after mem n) 1 b.l2Rp1 va = leaf (va % 2^39) := by
  obtain ⟨j, hj⟩ : ∃ j, va / 2^21 % 512 = j := ⟨_, rfl⟩
  have hi : j < 512 := by omega
  have hblock : b.after mem n (entryAddr 1 b.l2Rp1 va) = rp1Block j := by
    rw [entryAddr_one, hj, after_rp1 b mem n hi, h.rp1 _ hi, ite_self]
  have hdesc : rp1Block j % 4 = 1 := by
    rw [rp1Block_eq]
    omega
  have hpa : rp1Block j / 2^21 % 2^27 * 2^21 + va % 2^21 = va % 2^39 := by
    rw [rp1Block_eq]
    omega
  have hidx : (va % 2^39 - 0x1c00000000) / 2^21 = j := by omega
  rw [leaf, if_neg (by omega), if_pos (by omega), walk_block hblock hdesc (by decide), last_one, hpa,
    hidx]

/-- The L1 step, while the entry of the L0 table is there. -/
theorem Built.walk_l1 (h : Built b mem) {n : ℕ} (hn : n ≤ 256 ∨ 1536 < n) (va : ℕ) :
    walk (b.after mem n) 2 b.l1 va =
      if n ≤ 256 ∨ lastStore (va % 2^39) < n then leaf (va % 2^39) else none := by
  obtain ⟨k, hk⟩ : ∃ k, va / 2^30 % 512 = k := ⟨_, rfl⟩
  have hi : k < 512 := by omega
  have hcell := after_l1 b mem n hi
  rw [h.l1 _ hi] at hcell
  have hentry : entryAddr 2 b.l1 va = b.l1 + 8 * k := by rw [entryAddr_two, hk]
  have hal := b.aligned
  have hlt := b.bounded
  by_cases hzero : k = 0
  · have hva : va % 2^39 < 2^30 := by omega
    have hlast : lastStore (va % 2^39) = 1540 + va % 2^39 / 2^21 := if_pos hva
    by_cases hlive : n ≤ 256 ∨ 1538 < n
    · have hlink : b.after mem n (entryAddr 2 b.l1 va) = b.l2 + 3 := by
        rw [hentry, hcell]
        split_ifs <;> omega
      rw [walk_table hlink (by omega) (nextTable_add (by omega) (by omega)), h.walk_l2 n va hva,
        hlast]
      refine if_congr ?_ rfl rfl
      omega
    · have hnone : b.after mem n (entryAddr 2 b.l1 va) = 0 := by
        rw [hentry, hcell]
        split_ifs <;> omega
      rw [walk_invalid hnone rfl, hlast, if_neg (by omega)]
  by_cases hrp1 : k = 0x70
  · have hlast : lastStore (va % 2^39) = 1539 := if_neg (by omega)
    by_cases hlive : n ≤ 256 ∨ 1539 < n
    · have hlink : b.after mem n (entryAddr 2 b.l1 va) = b.l2Rp1 + 3 := by
        rw [hentry, hcell]
        split_ifs <;> omega
      rw [walk_table hlink (by omega) (nextTable_add (by omega) (by omega)),
        h.walk_rp1 n va (by omega), hlast, if_pos hlive]
    · have hnone : b.after mem n (entryAddr 2 b.l1 va) = 0 := by
        rw [hentry, hcell]
        split_ifs <;> omega
      rw [walk_invalid hnone rfl, hlast, if_neg hlive]
  · have hnone : b.after mem n (entryAddr 2 b.l1 va) = 0 := by
      rw [hentry, hcell]
      split_ifs <;> omega
    have hleaf : leaf (va % 2^39) = none := by
      rw [leaf, if_neg (by omega), if_neg (by omega)]
    rw [walk_invalid hnone rfl, hleaf, ite_self]

/-- A walk from the L0 table, which is the root of both halves of the address space. -/
theorem Built.walk_l0 (h : Built b mem) (n va : ℕ) :
    walk (b.after mem n) 3 b.l0 va =
      if va % 2^47 < 2^39 ∧
        (n ≤ (if va % 2^48 < 2^47 then 0 else 256) ∨ lastStore (va % 2^39) < n)
      then leaf (va % 2^39) else none := by
  obtain ⟨k, hk⟩ : ∃ k, va / 2^39 % 512 = k := ⟨_, rfl⟩
  have hi : k < 512 := by omega
  have hcell := after_l0 b mem n hi
  rw [h.l0 _ hi] at hcell
  have hentry : entryAddr 3 b.l0 va = b.l0 + 8 * k := by rw [entryAddr_three, hk]
  have hal := b.aligned
  have hlt := b.bounded
  have hlast : 1539 ≤ lastStore (va % 2^39) := by
    unfold lastStore
    split <;> omega
  by_cases hwindow : va % 2^47 < 2^39
  · -- the entry is cleared by the store `k`, and written again by the store `relink`
    obtain ⟨relink, hrelink⟩ : ∃ relink, k = 0 ∧ relink = 1536 ∨ k = 256 ∧ relink = 1537 := by
      rcases show k = 0 ∨ k = 256 by omega with hk | hk
      · exact ⟨1536, .inl ⟨hk, rfl⟩⟩
      · exact ⟨1537, .inr ⟨hk, rfl⟩⟩
    have hfirst : (if va % 2^48 < 2^47 then 0 else 256) = k := by split_ifs <;> omega
    rw [hfirst]
    by_cases hlive : n ≤ k ∨ relink < n
    · have hlink : b.after mem n (entryAddr 3 b.l0 va) = b.l1 + 3 := by
        rw [hentry, hcell]
        split_ifs <;> omega
      rw [walk_table hlink (by omega) (nextTable_add (by omega) (by omega)),
        h.walk_l1 (by omega) va]
      refine if_congr ?_ rfl rfl
      omega
    · have hnone : b.after mem n (entryAddr 3 b.l0 va) = 0 := by
        rw [hentry, hcell]
        split_ifs <;> omega
      rw [walk_invalid hnone rfl, if_neg (by omega)]
  · have hnone : b.after mem n (entryAddr 3 b.l0 va) = 0 := by
      rw [hentry, hcell]
      split_ifs <;> omega
    rw [walk_invalid hnone rfl, if_neg (fun hw => hwindow hw.1)]

end Walks

end BootTables

/-! ## Main results -/

/-- The virtual addresses that an MMU with 48 bits of them has. -/
def Canonical (va : ℕ) : Prop := va < 2^48 ∨ 2^64 - 2^48 ≤ va ∧ va < 2^64

instance (va : ℕ) : Decidable (Canonical va) := inferInstanceAs (Decidable (_ ∨ _))

/-- With one root for both halves, the half of an address does not matter. -/
theorem translate_same (mem : PhysMem) (root va : ℕ) :
    Translation.translate mem root root va = if Canonical va then walk mem 3 root va else none := by
  unfold Translation.translate
  by_cases hlow : va < 2^48
  · rw [if_pos hlow, if_pos (.inl hlow)]
  · by_cases hhigh : 2^64 - 2^48 ≤ va ∧ va < 2^64
    · rw [if_neg hlow, if_pos hhigh, if_pos (.inr hhigh)]
    · have hnone : ¬Canonical va := not_or_intro hlow hhigh
      rw [if_neg hlow, if_neg hhigh, if_neg hnone]

/-- A leaf is that of the address itself, and device memory for the peripherals and the RP1. -/
theorem BootTables.leaf_eq_some {a : ℕ} {l : Translation} (h : leaf a = some l) :
    l.pa = a ∧ l.desc / 4 % 8 = if a < peripheralBase then attrNormal else attrDevice := by
  unfold leaf at h
  unfold peripheralBase attrNormal attrDevice
  split_ifs at h with hlow hrp1
  · cases h
    refine ⟨rfl, ?_⟩
    show bootBlock (a / 2^21) / 4 % 8 = _
    rw [bootBlock_eq]
    split_ifs <;> omega
  · cases h
    refine ⟨rfl, ?_⟩
    show rp1Block ((a - 0x1c00000000) / 2^21) / 4 % 8 = _
    rw [rp1Block_eq, if_neg (by omega)]
    omega

/-- Whatever was in memory, `boot_enable_mmu` makes tables that map the first GiB and the RP1, at two
places in each half of the address space, and nothing else. It writes nothing but the tables. -/
theorem translate_boot (b : BootTables) (mem : PhysMem) :
    (∀ va, Translation.translate (applyWrites mem b.stores) b.l0 b.l0 va =
      if Canonical va ∧ va % 2^47 < 2^39 then BootTables.leaf (va % 2^39) else none) ∧
    (∀ a l, BootTables.leaf a = some l →
      l.pa = a ∧ l.desc / 4 % 8 = if a < peripheralBase then attrNormal else attrDevice) ∧
    ∀ addr, (∀ t ∈ [b.l0, b.l1, b.l2, b.l2Rp1], addr < t ∨ t + 4096 ≤ addr) →
      applyWrites mem b.stores addr = mem addr := by
  have hbuilt := BootTables.built_after b mem
  rw [BootTables.after_all] at hbuilt
  refine ⟨fun va => ?_, fun _ _ => BootTables.leaf_eq_some, fun addr haddr => ?_⟩
  · have hwalk := hbuilt.walk_l0 0 va
    rw [BootTables.after_zero] at hwalk
    rw [translate_same, hwalk]
    simp only [Nat.zero_le, true_or, and_true, ite_and]
  · rw [← BootTables.after_all]
    exact BootTables.after_other b mem 2564 haddr

/-- While a CPU builds the tables again, another CPU that runs on them loses its addresses: those below
2^47 with the first store, and those of the kernel's window with the 257th, each until the last entry
that the address needs is written. -/
theorem translate_rebuild (b : BootTables) (mem : PhysMem) (n va : ℕ) :
    Translation.translate (applyWrites (applyWrites mem b.stores) (b.stores.take n)) b.l0 b.l0 va =
      if n ≤ (if va % 2^48 < 2^47 then 0 else 256) ∨ BootTables.lastStore (va % 2^39) < n then
        Translation.translate (applyWrites mem b.stores) b.l0 b.l0 va
      else none := by
  have hbuilt := BootTables.built_after b mem
  rw [BootTables.after_all] at hbuilt
  have hwhole := hbuilt.walk_l0 0 va
  rw [BootTables.after_zero] at hwhole
  have hpart := hbuilt.walk_l0 n va
  rw [translate_same, translate_same, hwhole]
  show (if Canonical va then walk (b.after (applyWrites mem b.stores) n) 3 b.l0 va else none) = _
  rw [hpart]
  by_cases hwindow : va % 2^47 < 2^39
  · simp only [hwindow, true_and, Nat.zero_le, true_or, if_true]
    by_cases hn : n ≤ (if va % 2^48 < 2^47 then 0 else 256) ∨
        BootTables.lastStore (va % 2^39) < n
    · simp only [hn, if_true]
    · simp only [hn, if_false, ite_self]
  · simp only [hwindow, false_and, if_false, ite_self]

end Ralix.Arch
