import Ralix.Lib.AArch64

/-!
# The trap frame

The sequences of `exception.S` around the call to `irq_handler`: `irq_vector` saves the general
registers and three system registers in a frame of 288 bytes on the stack of the interrupted
context, and after the call it loads them from the frame that the handler returned. The offsets of
the sequences are those of the fields of `TrapFrame` in `trap.rs`, which is `repr(C)`.

`save_load` says what a frame holds when it is saved, and `restore_eq` what the core holds when it
is resumed from a frame: all of the frame, and, of the vector unit, whatever was there before.
-/

namespace Ralix.Arch

open Lib Lib.AArch64 Instr Reg

/-- `TF_SIZE` -/
def tfSize : BitVec 64 := 0x120

/-- The general registers are stored. -/
def storeRegs : List Instr :=
  [stp (x 0) (x 1) 0, stp (x 2) (x 3) 16, stp (x 4) (x 5) 32, stp (x 6) (x 7) 48,
    stp (x 8) (x 9) 64, stp (x 10) (x 11) 80, stp (x 12) (x 13) 96, stp (x 14) (x 15) 112,
    stp (x 16) (x 17) 128, stp (x 18) (x 19) 144, stp (x 20) (x 21) 160, stp (x 22) (x 23) 176,
    stp (x 24) (x 25) 192, stp (x 26) (x 27) 208, stp (x 28) (x 29) 224, stp (x 30) xzr 240]

/-- The system registers are stored, by way of `x0` to `x2`. -/
def storeSys : List Instr :=
  [mrs 0 .elr, mrs 1 .spsr, mrs 2 .spEl0, stp (x 0) (x 1) 256, str (x 2) 272]

/-- The system registers are loaded. -/
def loadSys : List Instr :=
  [ldp (x 0) (x 1) 256, ldr (x 2) 272, msr .elr 0, msr .spsr 1, msr .spEl0 2]

/-- The general registers are loaded. -/
def loadRegs : List Instr :=
  [ldp (x 30) xzr 240, ldp (x 28) (x 29) 224, ldp (x 26) (x 27) 208, ldp (x 24) (x 25) 192,
    ldp (x 22) (x 23) 176, ldp (x 20) (x 21) 160, ldp (x 18) (x 19) 144, ldp (x 16) (x 17) 128,
    ldp (x 14) (x 15) 112, ldp (x 12) (x 13) 96, ldp (x 10) (x 11) 80, ldp (x 8) (x 9) 64,
    ldp (x 6) (x 7) 48, ldp (x 4) (x 5) 32, ldp (x 2) (x 3) 16, ldp (x 0) (x 1) 0]

/-- `irq_vector`, up to `bl irq_handler`. -/
def irqVectorSave : List Instr := [subSp tfSize] ++ (storeRegs ++ (storeSys ++ [movFromSp 0]))

/-- `irq_vector`, from the return of `irq_handler`. -/
def irqVectorRestore : List Instr :=
  ([movToSp 0] ++ loadSys) ++ (loadRegs ++ [addSp tfSize, eret])

/-- `sync_vector`, up to `bl sync_handler`. -/
def syncVectorSave : List Instr := [subSp tfSize] ++ (storeRegs ++ (storeSys ++ [movFromSp 0]))

/-- `sync_vector`, from the return of `sync_handler`. -/
def syncVectorRestore : List Instr :=
  ([movToSp 0] ++ loadSys) ++ (loadRegs ++ [addSp tfSize, eret])

/-- `x0` of some registers. -/
def arg0 (x : Fin 31 → BitVec 64) : BitVec 64 := x 0

/-- `x1` of some registers. -/
def arg1 (x : Fin 31 → BitVec 64) : BitVec 64 := x 1

/-- `start_first`: to the stack in `x1`, and to the entry point in `x0`. -/
def startFirst (c : Core) : Core := { c with sp := arg1 c.x, pc := arg0 c.x }

/-- `x0`, which takes the frame to the handler and the frame to resume back. -/
def framePtr (c : Core) : BitVec 64 := c.x 0

/-- `TrapFrame` -/
structure TrapFrame where
  x : Fin 31 → BitVec 64
  pad : BitVec 64
  elr : BitVec 64
  spsr : BitVec 64
  spEl0 : BitVec 64
  pad2 : BitVec 64

/-- The frame at an address, with the layout of `repr(C)`. -/
def TrapFrame.load (m : Mem) (a : BitVec 64) : TrapFrame where
  x i := m (a + BitVec.ofNat 64 (8 * i))
  pad := m (a + 248)
  elr := m (a + 256)
  spsr := m (a + 264)
  spEl0 := m (a + 272)
  pad2 := m (a + 280)

/-- The addresses of the doublewords of the frame at an address. -/
def frameWords (a : BitVec 64) : List (BitVec 64) :=
  (List.range 36).map fun i => a + BitVec.ofNat 64 (8 * i)

/-- A frame that holds the context of a core. -/
structure TrapFrame.Holds (f : TrapFrame) (c : Core) : Prop where
  x : f.x = c.x
  elr : f.elr = c.pc
  spsr : f.spsr = c.pstate
  spEl0 : f.spEl0 = c.spEl0

variable {c : Core} {m m' : Mem} {a : BitVec 64}

/-- A doubleword of a frame, by its offset. -/
theorem mem_frameWords {i : ℕ} (hi : i < 36) : a + BitVec.ofNat 64 (8 * i) ∈ frameWords a :=
  List.mem_map_of_mem (List.mem_range.mpr hi)

/-- A frame is its doublewords. -/
theorem TrapFrame.load_congr (h : ∀ b ∈ frameWords a, m' b = m b) :
    TrapFrame.load m' a = TrapFrame.load m a := by
  have hword : ∀ i < 36, m' (a + BitVec.ofNat 64 (8 * i)) = m (a + BitVec.ofNat 64 (8 * i)) :=
    fun i hi => h _ (mem_frameWords hi)
  rw [TrapFrame.load, TrapFrame.load, TrapFrame.mk.injEq]
  exact ⟨funext fun i => hword i (by omega), hword 31 (by omega), hword 32 (by omega),
    hword 33 (by omega), hword 34 (by omega), hword 35 (by omega)⟩

/-! ## Save -/

/-- What `irq_vector` stores for a context, by offset. -/
def slots (c : Core) : List (BitVec 64 × BitVec 64) :=
  (storeRegs.flatMap Instr.stores).map (fun w => (w.1, c.read w.2)) ++
    [(256, c.pc), (264, c.pstate), (272, c.spEl0)]

/-- The offsets of the slots. -/
theorem slots_fst (c : Core) :
    (slots c).map Prod.fst = (List.range 35).map fun i => BitVec.ofNat 64 (8 * i) := rfl

/-- Each slot is stored once. -/
theorem slots_nodup (c : Core) : ((slots c).map Prod.fst).Nodup := by
  rw [slots_fst]
  decide

/-- The addresses of the slots of a frame. -/
theorem slots_addr (c : Core) (a : BitVec 64) :
    ((slots c).map fun w => (a + w.1, w.2)).map Prod.fst =
      ((slots c).map Prod.fst).map (a + ·) := by
  rw [List.map_map, List.map_map]
  rfl

/-- A general register has a slot at its place in the frame. -/
theorem x_mem_slots (c : Core) (i : Fin 31) : (BitVec.ofNat 64 (8 * i), c.x i) ∈ slots c := by
  have hi : (BitVec.ofNat 64 (8 * i), Reg.x i) ∈ storeRegs.flatMap Instr.stores := by
    revert i
    decide
  exact List.mem_append_left _ (List.mem_map_of_mem (f := fun w => (w.1, c.read w.2)) hi)

/-- The system registers are stored, and `x0` is `sp`. -/
theorem storeSys_eq (c : Core) (m : Mem) :
    runs (storeSys ++ [movFromSp 0]) (c, m) =
      (c.withX (Function.update (Function.update (Function.update (Function.update c.x
          0 c.elr) 1 c.spsr) 2 c.spEl0) 0 c.sp),
        applyWrites m [(c.sp + 256, c.elr), (c.sp + 264, c.spsr), (c.sp + 272, c.spEl0)]) :=
  rfl

/-- The memory after the save, and the registers that the handler is called with. -/
theorem save_eq (c : Core) (m : Mem) :
    framePtr (runs irqVectorSave (c.takeIrq, m)).1 = c.sp - tfSize ∧
      (runs irqVectorSave (c.takeIrq, m)).1.simd = c.simd ∧
      (runs irqVectorSave (c.takeIrq, m)).2 =
        applyWrites m ((slots c).map fun w => (c.sp - tfSize + w.1, w.2)) := by
  have hpush : runs [subSp tfSize] (c.takeIrq, m) = ({ c.takeIrq with sp := c.sp - tfSize }, m) :=
    rfl
  rw [irqVectorSave, runs_append, runs_append, hpush, runs_stores (show storeRegs.all Instr.isStore from rfl),
    storeSys_eq, slots, List.map_append, applyWrites_append]
  exact ⟨rfl, rfl, rfl⟩

/-- A word that the save stores. -/
theorem save_slot {off w : BitVec 64} (h : (off, w) ∈ slots c) :
    (runs irqVectorSave (c.takeIrq, m)).2 (c.sp - tfSize + off) = w := by
  rw [(save_eq c m).2.2]
  refine applyWrites_of_mem_nodup ?_
    (List.mem_map_of_mem (f := fun w : BitVec 64 × BitVec 64 => (c.sp - tfSize + w.1, w.2)) h)
  have hinj : Function.Injective (c.sp - tfSize + ·) :=
    fun _ _ he => (BitVec.add_right_inj (c.sp - tfSize)).mp he
  rw [slots_addr]
  exact (slots_nodup c).map hinj

/-- The frame that is saved holds the context of the core. -/
theorem save_holds (c : Core) (m : Mem) :
    (TrapFrame.load (runs irqVectorSave (c.takeIrq, m)).2 (c.sp - tfSize)).Holds c where
  x := funext fun i => save_slot (x_mem_slots c i)
  elr := save_slot (List.mem_append_right _ (.head _))
  spsr := save_slot (List.mem_append_right _ (.tail _ (.head _)))
  spEl0 := save_slot (List.mem_append_right _ (.tail _ (.tail _ (.head _))))

/-- The save writes to the frame alone. -/
theorem save_frame (h : a ∉ frameWords (c.sp - tfSize)) :
    (runs irqVectorSave (c.takeIrq, m)).2 a = m a := by
  rw [(save_eq c m).2.2]
  refine applyWrites_of_notMem fun hmem => h ?_
  rw [slots_addr, slots_fst, List.map_map] at hmem
  obtain ⟨i, hi, rfl⟩ := List.mem_map.mp hmem
  exact mem_frameWords (Nat.lt_succ_of_lt (List.mem_range.mp hi))

/-! ## Restore -/

/-- The system registers are loaded from the frame that `x0` points to. -/
theorem loadSys_eq (c : Core) (m : Mem) :
    ∃ y, runs ([movToSp 0] ++ loadSys) (c, m) =
      ({ c.withX y with
          sp := c.x 0, elr := m (c.x 0 + 256), spsr := m (c.x 0 + 264), spEl0 := m (c.x 0 + 272) },
        m) :=
  ⟨_, rfl⟩

/-- A general register is loaded from its place in the frame. -/
theorem loadRegs_x (c : Core) (m : Mem) (i : Fin 31) :
    (runs loadRegs (c, m)).1.x i = m (c.sp + BitVec.ofNat 64 (8 * i)) := by
  refine runs_loads_mem rfl (by decide) ?_
  revert i
  decide

/-- The core after the restore. -/
theorem restore_eq (c : Core) (m : Mem) :
    runs irqVectorRestore (c, m) =
      ({ x := (TrapFrame.load m (framePtr c)).x
         sp := framePtr c + tfSize
         pc := (TrapFrame.load m (framePtr c)).elr
         pstate := (TrapFrame.load m (framePtr c)).spsr
         elr := (TrapFrame.load m (framePtr c)).elr
         spsr := (TrapFrame.load m (framePtr c)).spsr
         spEl0 := (TrapFrame.load m (framePtr c)).spEl0
         simd := c.simd }, m) := by
  obtain ⟨y, hy⟩ := loadSys_eq c m
  rw [irqVectorRestore, runs_append, runs_append, hy]
  -- The loads of the general registers leave all else alone.
  have hregs : ∀ d : Core, runs loadRegs (d, m) =
      (d.withX fun i => m (d.sp + BitVec.ofNat 64 (8 * i)), m) := by
    intro d
    have hx := funext (loadRegs_x d m)
    rw [runs_loads (show loadRegs.all Instr.isLoad from rfl)] at hx ⊢
    rw [← hx]
    rfl
  rw [hregs]
  rfl

end Ralix.Arch
