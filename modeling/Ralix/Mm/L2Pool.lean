import Ralix.Mm.Mapping

/-!
# The pools of L2 tables

What runs of `map_range_with` leave in the L1 table and the pool of a set of tables (`PoolSound`). As
many tables of the pool are taken as there are table descriptors in the L1 table, which are 512 at most.
Each descriptor leads to a table of its own, and to the one that `get_l2_table_with` returned when it
wrote the descriptor or met it again (`l2_pool`). So a run never waits for a table.

A run is looked at block by block: `map_range_with` is a list of calls to `map_block_with`
(`MapCall.steps`), and a table descriptor stays in the L1 table once it is there
(`mapBlocks_linked`).
-/

namespace Ralix.Mm

open Lib Platform

namespace Tables

/-- The L1 entry holds a table descriptor. -/
def Linked (t : Tables) (i : Fin 512) : Prop := t.l1 i &&& 0b11 = descTable

instance (t : Tables) : DecidablePred t.Linked := fun i =>
  inferInstanceAs (Decidable (t.l1 i &&& 0b11 = descTable))

/-- The pointer that `get_l2_table_with` makes of an L1 entry. -/
def l2Pointer (t : Tables) (i : Fin 512) : ℕ := physToVirt (t.l1 i &&& 0x0000FFFFFFFFF000)

variable {t t' : Tables} {i : Fin 512}

/-- An entry that is the same holds a descriptor as before. -/
theorem Linked.congr (ht : t.Linked i) (h : t'.l1 i = t.l1 i) : t'.Linked i :=
  (congrArg (· &&& 0b11) h).trans ht

/-- An entry that is the same leads where it did. -/
theorem l2Pointer_congr (h : t'.l1 i = t.l1 i) : t'.l2Pointer i = t.l2Pointer i :=
  congrArg (fun entry => physToVirt (entry &&& 0x0000FFFFFFFFF000)) h

end Tables

/-- The L1 table and the pool agree. -/
structure PoolSound (s : TableAddrs) (t : Tables) : Prop where
  count : t.nextL2 = (Finset.univ.filter t.Linked).card
  le : t.nextL2 ≤ 512
  inj : ∀ i j, t.Linked i → t.Linked j → t.l2Pointer i = t.l2Pointer j → i = j
  pool : ∀ i, t.Linked i → ∃ k : Fin l2Tables, k.val < t.nextL2 ∧ t.l2Pointer i = s.poolVa k

/-! ## Descriptors and tables -/

namespace Slots

variable {s : TableAddrs} {t : Tables} {m : ℕ → ℕ} {slot : Fin 512 → Option (Fin l2Tables)}

/-- The L1 entry of a table of the pool holds a descriptor that leads back to the table. -/
theorem pointer (h : Slots s t m slot) {i : Fin 512} {k : Fin l2Tables} (hi : slot i = some k) :
    t.Linked i ∧ t.l2Pointer i = s.poolVa k := by
  have hmem := TableAddrs.poolVa_mem (s := s) (k := k)
  have hlt : virtToPhys (s.poolVa k) < 2^48 := (virtToPhys_lt hmem).trans (by decide)
  obtain ⟨hdesc, hpa⟩ := tableDesc_spec (virtToPhys_mod hmem TableAddrs.poolVa_mod) hlt
  rw [Tables.Linked, Tables.l2Pointer, (h.used i k hi).1, hpa]
  exact ⟨hdesc, physToVirt_virtToPhys hmem⟩

/-- The L1 entries with a descriptor are those with a table of the pool. -/
theorem linked_iff (h : Slots s t m slot) {i : Fin 512} : t.Linked i ↔ (slot i).isSome := by
  cases hi : slot i with
  | some k => exact iff_of_true (h.pointer hi).1 rfl
  | none =>
    rw [Tables.Linked, (h.unused i hi).1]
    exact iff_of_false (by decide) Bool.false_ne_true

/-- The L1 table and the pool agree while each table of the pool has its slot. -/
theorem poolSound (h : Slots s t m slot) : PoolSound s t := by
  have hcount : t.nextL2 = (Finset.univ.filter t.Linked).card := by
    rw [h.next]
    exact congrArg Finset.card (Finset.filter_congr fun i _ => h.linked_iff.symm)
  have hslot : ∀ {i}, t.Linked i → ∃ k, slot i = some k := fun hi =>
    Option.isSome_iff_exists.mp (h.linked_iff.mp hi)
  refine ⟨hcount, ?_, ?_, ?_⟩
  · calc t.nextL2 = (Finset.univ.filter t.Linked).card := hcount
      _ ≤ (Finset.univ : Finset (Fin 512)).card := Finset.card_filter_le _ _
      _ = 512 := Finset.card_fin 512
  · intro i j hi hj hptr
    obtain ⟨k, hk⟩ := hslot hi
    obtain ⟨k', hk'⟩ := hslot hj
    rw [(h.pointer hk).2, (h.pointer hk').2] at hptr
    -- the tables of the pool lie one after another
    have hkk : k = k' := by
      unfold TableAddrs.poolVa at hptr
      exact Fin.ext (by omega)
    exact h.inj i j k hk (hkk ▸ hk')
  · intro i hi
    obtain ⟨k, hk⟩ := hslot hi
    exact ⟨k, h.lt i k hk, (h.pointer hk).2⟩

end Slots

/-- The L1 table and the pool agree in tables that stand for some map. -/
theorem Represents.poolSound {s : TableAddrs} {t : Tables} {m : ℕ → ℕ} (h : Represents s t m) :
    PoolSound s t := by
  obtain ⟨slot, hslot⟩ := h
  exact hslot.poolSound

/-! ## Runs, block by block -/

/-- Calls of `map_block_with` in order, for addresses and the descriptors that it writes. -/
def mapBlocks (s : TableAddrs) (steps : List (ℕ × ℕ)) (t : Tables) : Exec Tables :=
  steps.foldlM (fun t step => mapBlockWith s t step.1 step.2) t

/-- Calls of `map_range_with` in order. -/
def mapRanges (s : TableAddrs) (calls : List MapCall) (t : Tables) : Exec Tables :=
  calls.foldlM (fun t c => c.run s t) t

/-- The calls of `map_block_with` that a call of `map_range_with` makes. -/
def MapCall.steps (c : MapCall) : List (ℕ × ℕ) :=
  (List.range c.blocks).map fun i => (wadd c.vaddr (wmul i blockSize), c.desc i)

/-- Calls after calls. -/
theorem mapBlocks_append (s : TableAddrs) (pre post : List (ℕ × ℕ)) (t : Tables) :
    mapBlocks s (pre ++ post) t = mapBlocks s pre t >>= mapBlocks s post :=
  List.foldlM_append

/-- A call of `map_range_with` is its calls of `map_block_with`. -/
theorem MapCall.run_eq_mapBlocks (c : MapCall) (s : TableAddrs) (t : Tables) :
    c.run s t = mapBlocks s c.steps t := by
  rw [MapCall.run, Exec.forRange_eq_foldlM, mapBlocks, MapCall.steps, List.foldlM_map]

/-- So are many. -/
theorem mapRanges_eq_mapBlocks (s : TableAddrs) (calls : List MapCall) (t : Tables) :
    mapRanges s calls t = mapBlocks s (calls.flatMap MapCall.steps) t := by
  induction calls generalizing t with
  | nil => rfl
  | cons c calls ih =>
    rw [List.flatMap_cons, mapBlocks_append, ← c.run_eq_mapBlocks]
    exact bind_congr fun t => ih t

section Run

variable {s : TableAddrs} {t t' : Tables}

/-- Calls of `map_block_with` always return. -/
theorem mapBlocks_ok (steps : List (ℕ × ℕ)) {m : ℕ → ℕ} (h : Represents s t m) :
    ∃ t' m', mapBlocks s steps t = .ok t' ∧ Represents s t' m' := by
  induction steps generalizing t m with
  | nil => exact ⟨t, m, rfl, h⟩
  | cons step steps ih =>
    obtain ⟨t₁, hstep, -, ht₁⟩ := mapBlockWith_ok h step.1 step.2
    obtain ⟨t₂, m₂, hsteps, ht₂⟩ := ih ht₁
    refine ⟨t₂, m₂, ?_, ht₂⟩
    rw [mapBlocks, List.foldlM_cons, hstep]
    exact hsteps

/-- `get_l2_table_with` leaves the descriptors alone that are there. -/
theorem getL2TableWith_linked {i j : Fin 512} {k : Fin l2Tables}
    (h : getL2TableWith s t i = .ok (k, t')) (hj : t.Linked j) : t'.l1 j = t.l1 j := by
  unfold getL2TableWith at h
  by_cases hi : t.l1 i &&& 0b11 = descTable
  · rw [if_pos hi] at h
    dsimp only at h
    split at h
    · cases h
      rfl
    · cases h
  · rw [if_neg hi] at h
    split at h
    · cases h
      -- the entry that is filled had no descriptor
      have hji : j ≠ i := by
        rintro rfl
        exact hi hj
      exact Function.update_of_ne hji _ _
    · cases h

/-- `map_block_with` asks for a table and writes to it. -/
theorem mapBlockWith_eq_ok {vaddr desc : ℕ} (h : mapBlockWith s t vaddr desc = .ok t') :
    ∃ k t₁, getL2TableWith s t (tableIndex vaddr 30) = .ok (k, t₁) ∧ t'.l1 = t₁.l1 := by
  obtain ⟨⟨k, t₁⟩, hget, h⟩ := Exec.bind_eq_ok.mp h
  cases h
  exact ⟨k, t₁, hget, rfl⟩

/-- A descriptor stays in the L1 table once it is there. -/
theorem mapBlocks_linked {steps : List (ℕ × ℕ)} {j : Fin 512} (h : mapBlocks s steps t = .ok t')
    (hj : t.Linked j) : t'.l1 j = t.l1 j := by
  induction steps generalizing t with
  | nil =>
    cases h
    rfl
  | cons step steps ih =>
    obtain ⟨t₁, hstep, h⟩ := Exec.bind_eq_ok.mp h
    obtain ⟨k, t₂, hget, hl1⟩ := mapBlockWith_eq_ok hstep
    have hkept : t₁.l1 j = t.l1 j := by rw [hl1, getL2TableWith_linked hget hj]
    exact (ih h (hj.congr hkept)).trans hkept

end Run

/-- The table that `get_l2_table_with` returns for an address is the one that the L1 entry of the
address leads to from then on. -/
theorem mapBlocks_pointer {s : TableAddrs} {t t' : Tables} {m : ℕ → ℕ} (h : Represents s t m)
    {vaddr desc : ℕ} {post : List (ℕ × ℕ)} (hrun : mapBlocks s ((vaddr, desc) :: post) t = .ok t') :
    ∃ k t₁, getL2TableWith s t (tableIndex vaddr 30) = .ok (k, t₁) ∧
      t'.Linked (tableIndex vaddr 30) ∧ t'.l2Pointer (tableIndex vaddr 30) = s.poolVa k := by
  obtain ⟨slot, hslot⟩ := h
  obtain ⟨k, t₁, slot₁, hget, -, hslot₁, hk⟩ := hslot.getL2TableWith_ok (tableIndex vaddr 30)
  obtain ⟨hlinked, hptr⟩ := hslot₁.pointer hk
  obtain ⟨t₂, hstep, hpost⟩ := Exec.bind_eq_ok.mp hrun
  obtain ⟨k', t₁', hget', hl1⟩ := mapBlockWith_eq_ok hstep
  rw [hget] at hget'
  cases hget'
  -- the write to the table leaves the L1 table alone, and so do the later calls
  have hentry : t₂.l1 (tableIndex vaddr 30) = t₁.l1 (tableIndex vaddr 30) := congrFun hl1 _
  have hkept : t'.l1 (tableIndex vaddr 30) = t₁.l1 (tableIndex vaddr 30) :=
    (mapBlocks_linked hpost (hlinked.congr hentry)).trans hentry
  exact ⟨k, t₁, hget, hlinked.congr hkept, (Tables.l2Pointer_congr hkept).trans hptr⟩

/-- Empty tables stand for the map with nothing in it, whatever is in the pool. -/
theorem represents_empty (s : TableAddrs) {t : Tables} (hl1 : ∀ i, t.l1 i = 0) (hnext : t.nextL2 = 0) :
    Represents s t fun _ => 0 :=
  ⟨fun _ => none, nofun, nofun, by simpa using hnext, fun i _ => ⟨hl1 i, fun _ => rfl⟩, nofun⟩

/-- Runs of `map_range_with` on empty tables never wait for an L2 table, and leave the L1 table and the
pool in agreement. Each table that `get_l2_table_with` returned on the way is the one that its L1 entry
leads to in the end. In particular, `init` returns for every memory map. -/
theorem l2_pool :
    (∀ (s : TableAddrs) (t₀ : Tables) (calls : List MapCall), (∀ i, t₀.l1 i = 0) → t₀.nextL2 = 0 →
      ∃ t, mapRanges s calls t₀ = .ok t ∧ PoolSound s t ∧
        ∀ pre vaddr desc post, calls.flatMap MapCall.steps = pre ++ (vaddr, desc) :: post →
          ∃ t₁ k t₂, mapBlocks s pre t₀ = .ok t₁ ∧ PoolSound s t₁ ∧
            getL2TableWith s t₁ (tableIndex vaddr 30) = .ok (k, t₂) ∧
            t.Linked (tableIndex vaddr 30) ∧ t.l2Pointer (tableIndex vaddr 30) = s.poolVa k) ∧
    ∀ (s : Root → TableAddrs) (board : Board) (map : NormalizedMap) (extra : ExtraMmio),
      ∃ t, pagingInit s board map extra = .ok t ∧ ∀ root, PoolSound (s root) (t root) := by
  constructor
  · intro s t₀ calls hl1 hnext
    have h₀ := represents_empty s hl1 hnext
    obtain ⟨t, m, hrun, ht⟩ := mapBlocks_ok (calls.flatMap MapCall.steps) h₀
    refine ⟨t, (mapRanges_eq_mapBlocks s calls t₀).trans hrun, ht.poolSound, ?_⟩
    intro pre vaddr desc post hsteps
    obtain ⟨t₁, m₁, hpre, ht₁⟩ := mapBlocks_ok pre h₀
    rw [hsteps, mapBlocks_append, hpre] at hrun
    obtain ⟨k, t₂, hget, hlinked, hptr⟩ := mapBlocks_pointer ht₁ hrun
    exact ⟨t₁, k, t₂, hpre, ht₁.poolSound, hget, hlinked, hptr⟩
  · intro s board map extra
    obtain ⟨t, hrun, ht⟩ := runCalls_ok (s := s) (pagingCalls board map extra)
      (t := fun root => freshTables (s root) root) (m := fun _ _ => 0)
      fun root => represents_fresh (s root) root
    exact ⟨t, hrun, fun root => (ht root).2.poolSound⟩

/-- `l2_pool` at RAM and the RP1's window, in the kernel's tables. -/
theorem l2_pool_sample :
    ∃ t, mapRanges (sampleAddrs .kernel)
        [ramCall .rpi5 ⟨0x1000, 0x345000, .usableRam⟩ .kernel,
          Window.call ⟨rp1Base, rp1Size, attrDevice, shNone⟩ .kernel]
        (freshTables (sampleAddrs .kernel) .kernel) = .ok t ∧ PoolSound (sampleAddrs .kernel) t := by
  obtain ⟨t, hrun, hsound, -⟩ := l2_pool.1 (sampleAddrs .kernel)
    (freshTables (sampleAddrs .kernel) .kernel)
    [ramCall .rpi5 ⟨0x1000, 0x345000, .usableRam⟩ .kernel,
      Window.call ⟨rp1Base, rp1Size, attrDevice, shNone⟩ .kernel] (fun i => rfl) rfl
  exact ⟨t, hrun, hsound⟩

end Ralix.Mm
