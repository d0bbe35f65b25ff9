import Ralix.Kernel.Files
import Ralix.Kernel.Heap

/-!
# The system call handler

`sync_handler` of `src/kernel/syscall.rs`, for every synchronous exception. What it does to the process
table it does in one critical section. What it does with a device, the timer or the heap comes after
that, and does not touch the table. So a call of the handler is a step on the table, and a branch that
says what is left to do: it never returns, it returns with a frame, or it calls a service and makes
the frame from the answer.

Whatever the branch, `x0` is the only register of the frame that changes (`syncHandler_answers`).
-/

namespace Ralix.Kernel

open Lib Arch
open Dtb (Bytes Memory)

def syscallOpen : BitVec 64 := 1
def syscallRead : BitVec 64 := 2
def syscallWrite : BitVec 64 := 3
def syscallClose : BitVec 64 := 4
def syscallSleepMs : BitVec 64 := 5

/-- The exception class in `ESR_EL1`. -/
def exceptionClass (esr : BitVec 64) : BitVec 64 := esr >>> 26 &&& 0x3f

/-- The exception class of `svc`. -/
def ecSvc : BitVec 64 := 0x15

/-- What the handler calls outside of the process table. -/
inductive Service where
  /-- `keyboard::read`, into a buffer of the caller. It answers how much it read. -/
  | keyboard (ptr : BitVec 64) (len : ℕ)
  /-- The output of bytes to the console, or to the UART in its place. -/
  | console (bytes : Bytes)
  /-- A call of the allocator. -/
  | heap (call : HeapCall)
  /-- `timer::delay_ms`. -/
  | delay (ms : BitVec 64)

/-- What a branch of `sync_handler` does. -/
inductive SyncBranch where
  /-- It logs a fault, and waits for events for ever. -/
  | fault (ec esr far elr : BitVec 64)
  /-- It returns the frame. -/
  | done (frame : TrapFrame)
  /-- It calls a service, and returns a frame for the answer. -/
  | call (service : Service) (resume : BitVec 64 → TrapFrame)

/-- A branch for memory is a branch. -/
def HeapBranch.toSync : HeapBranch → SyncBranch
  | done frame => .done frame
  | call c resume => .call (.heap c) resume

/-! ## Read and write -/

/-- `with_current`: what `f` returns for the process that is current on the CPU, if there is one. -/
def withCurrent {α : Type} (cpu : Cpu) (f : Process → α) (s : Sched) : Exec (Option α) :=
  if s.current cpu = invalidIdx then .ok none
  else do
    let slot ← s.table.get (s.current cpu)
    return slot.map f

/-- `get_fd_current`. -/
def getFdCurrent (cpu : Cpu) (fd : ℕ) (s : Sched) : Exec (Option FileDesc) :=
  if h : fd < maxFds then do
    let desc ← withCurrent cpu (fun proc => proc.fds ⟨fd, h⟩) s
    return desc.join
  else .ok none

/-- `vfs::read`, and the result in `x0`. -/
def vfsRead (desc : FileDesc) (ptr : BitVec 64) (len : ℕ) (frame : TrapFrame) : SyncBranch :=
  if !desc.flags.read then .done (ret frame 0)
  else
    match desc.handle with
    | .devFb0 => .done (ret frame 0)
    | .devKbd0 => .call (.keyboard ptr len) (ret frame)

/-- `vfs::write`, and the result in `x0`. -/
def vfsWrite (desc : FileDesc) (bytes : Bytes) (frame : TrapFrame) : SyncBranch :=
  if !desc.flags.write then .done (ret frame 0)
  else
    match desc.handle with
    | .devFb0 => .call (.console bytes) fun _ => ret frame (BitVec.ofNat 64 bytes.length)
    | .devKbd0 => .done (ret frame 0)

/-- The `SYSCALL_READ` branch of `sync_handler`. -/
def sysRead (cpu : Cpu) (frame : TrapFrame) (s : Sched) : Exec SyncBranch :=
  let ptr := reg frame 1
  let len := (reg frame 2).toNat
  if ptr = 0 ∨ len = 0 then .ok (.done (ret frame 0))
  else do
    match ← getFdCurrent cpu (reg frame 0).toNat s with
    | none => return .done (ret frame failure)
    | some desc => return vfsRead desc ptr len frame

/-- The `SYSCALL_WRITE` branch of `sync_handler`. -/
def sysWrite (cpu : Cpu) (mem : Memory) (frame : TrapFrame) (s : Sched) : Exec SyncBranch :=
  let ptr := reg frame 1
  let len := (reg frame 2).toNat
  if ptr = 0 ∨ len = 0 then .ok (.done (ret frame 0))
  else do
    match ← getFdCurrent cpu (reg frame 0).toNat s with
    | none => return .done (ret frame failure)
    | some desc => return vfsWrite desc (mem.bytes ptr.toNat len) frame

/-! ## The handler -/

/-- `sync_handler`, after a `svc`. -/
def svcHandler (cpu : Cpu) (mem : Memory) (frame : TrapFrame) (s : Sched) :
    Exec (SyncBranch × Sched) :=
  let syscall := reg frame 8
  if syscall = syscallOpen then do
    let (frame, s) ← sysOpen cpu mem frame s
    return (.done frame, s)
  else if syscall = syscallRead then do
    return (← sysRead cpu frame s, s)
  else if syscall = syscallWrite then do
    return (← sysWrite cpu mem frame s, s)
  else if syscall = syscallClose then do
    let (frame, s) ← sysClose cpu frame s
    return (.done frame, s)
  else if syscall = syscallSleepMs then
    .ok (.call (.delay (reg frame 0)) fun _ => ret frame 0, s)
  else if syscall = syscallAlloc then .ok ((sysAlloc frame).toSync, s)
  else if syscall = syscallRealloc then .ok ((sysRealloc frame).toSync, s)
  else if syscall = syscallFree then .ok ((sysFree frame).toSync, s)
  else .ok (.done (ret frame failure), s)

/-- `sync_handler`. Of the fault address it only makes a message. -/
def syncHandler (cpu : Cpu) (mem : Memory) (esr far : BitVec 64) (frame : TrapFrame) (s : Sched) :
    Exec (SyncBranch × Sched) :=
  if exceptionClass esr ≠ ecSvc then .ok (.fault (exceptionClass esr) esr far frame.elr, s)
  else svcHandler cpu mem frame s

/-! ## What comes back -/

/-- A branch that changes no register but `x0`: whatever it returns is the frame with a result. -/
inductive SyncBranch.Answers (frame : TrapFrame) : SyncBranch → Prop
  | fault (ec esr far elr : BitVec 64) : Answers frame (.fault ec esr far elr)
  | done (w : BitVec 64) : Answers frame (.done (ret frame w))
  | call (service : Service) (result : BitVec 64 → BitVec 64) :
      Answers frame (.call service fun ans => ret frame (result ans))

section Answers

variable {cpu : Cpu} {mem : Memory} {frame : TrapFrame} {s s' : Sched}

/-- The branch for `open` puts a result in `x0`. -/
theorem sysOpen_ret {frame' : TrapFrame} (h : sysOpen cpu mem frame s = .ok (frame', s')) :
    ∃ w, frame' = ret frame w := by
  unfold sysOpen at h
  dsimp only at h
  split at h
  · cases h
    exact ⟨_, rfl⟩
  split at h
  · cases h
    exact ⟨_, rfl⟩
  · obtain ⟨⟨fd, s''⟩, -, h⟩ := Exec.bind_eq_ok.mp h
    cases fd <;> (cases h; exact ⟨_, rfl⟩)

/-- The branch for `close` puts a result in `x0`. -/
theorem sysClose_ret {frame' : TrapFrame} (h : sysClose cpu frame s = .ok (frame', s')) :
    ∃ w, frame' = ret frame w := by
  obtain ⟨⟨closed, s''⟩, -, h⟩ := Exec.bind_eq_ok.mp h
  cases h
  exact ⟨_, rfl⟩

/-- `vfs::read` is answered in `x0`. -/
theorem vfsRead_answers (desc : FileDesc) (ptr : BitVec 64) (len : ℕ) (frame : TrapFrame) :
    (vfsRead desc ptr len frame).Answers frame := by
  unfold vfsRead
  split
  · exact .done _
  split
  · exact .done _
  · exact .call _ _

/-- `vfs::write` is answered in `x0`. -/
theorem vfsWrite_answers (desc : FileDesc) (bytes : Bytes) (frame : TrapFrame) :
    (vfsWrite desc bytes frame).Answers frame := by
  unfold vfsWrite
  split
  · exact .done _
  split
  · exact .call _ _
  · exact .done _

/-- The branch for `read` puts a result in `x0`. -/
theorem sysRead_answers {b : SyncBranch} (h : sysRead cpu frame s = .ok b) : b.Answers frame := by
  unfold sysRead at h
  dsimp only at h
  split at h
  · cases h
    exact .done _
  · obtain ⟨desc, -, h⟩ := Exec.bind_eq_ok.mp h
    cases desc with
    | none =>
      cases h
      exact .done _
    | some desc =>
      cases h
      exact vfsRead_answers desc _ _ frame

/-- The branch for `write` puts a result in `x0`. -/
theorem sysWrite_answers {b : SyncBranch} (h : sysWrite cpu mem frame s = .ok b) :
    b.Answers frame := by
  unfold sysWrite at h
  dsimp only at h
  split at h
  · cases h
    exact .done _
  · obtain ⟨desc, -, h⟩ := Exec.bind_eq_ok.mp h
    cases desc with
    | none =>
      cases h
      exact .done _
    | some desc =>
      cases h
      exact vfsWrite_answers desc _ frame

/-- The branch for `alloc` puts a result in `x0`. -/
theorem sysAlloc_answers (frame : TrapFrame) : (sysAlloc frame).toSync.Answers frame := by
  unfold sysAlloc
  dsimp only
  split
  · exact .done _
  split
  · exact .done _
  · exact .call _ _

/-- So does the one for `realloc`. -/
theorem sysRealloc_answers (frame : TrapFrame) : (sysRealloc frame).toSync.Answers frame := by
  unfold sysRealloc
  dsimp only
  split
  · exact .done _
  split
  · unfold sysReallocNull
    dsimp only
    split
    · exact .done _
    split
    · exact .done _
    · exact .call _ _
  split
  · exact .call _ _
  · exact .call _ _

/-- So does the one for `free`. -/
theorem sysFree_answers (frame : TrapFrame) : (sysFree frame).toSync.Answers frame := by
  unfold sysFree
  dsimp only
  split
  · exact .done _
  split
  · exact .done _
  · exact .call _ _

/-- After a `svc`, nothing comes back but a result in `x0`. -/
theorem svcHandler_answers {b : SyncBranch} (h : svcHandler cpu mem frame s = .ok (b, s')) :
    b.Answers frame := by
  unfold svcHandler at h
  dsimp only at h
  split at h
  · obtain ⟨⟨frame', s''⟩, hopen, h⟩ := Exec.bind_eq_ok.mp h
    cases h
    obtain ⟨w, rfl⟩ := sysOpen_ret hopen
    exact .done w
  split at h
  · obtain ⟨b', hread, h⟩ := Exec.bind_eq_ok.mp h
    cases h
    exact sysRead_answers hread
  split at h
  · obtain ⟨b', hwrite, h⟩ := Exec.bind_eq_ok.mp h
    cases h
    exact sysWrite_answers hwrite
  split at h
  · obtain ⟨⟨frame', s''⟩, hclose, h⟩ := Exec.bind_eq_ok.mp h
    cases h
    obtain ⟨w, rfl⟩ := sysClose_ret hclose
    exact .done w
  split at h
  · cases h
    exact .call _ _
  split at h
  · cases h
    exact sysAlloc_answers frame
  split at h
  · rw [← (Prod.mk.inj (Except.ok.inj h)).1]
    exact sysRealloc_answers frame
  split at h
  · cases h
    exact sysFree_answers frame
  · cases h
    exact .done _

/-- After any exception that it returns from, nothing comes back but a result in `x0`. -/
theorem syncHandler_answers {esr far : BitVec 64} {b : SyncBranch}
    (h : syncHandler cpu mem esr far frame s = .ok (b, s')) : b.Answers frame := by
  unfold syncHandler at h
  split at h
  · obtain ⟨rfl, -⟩ := Prod.mk.inj (Except.ok.inj h)
    exact .fault ..
  · exact svcHandler_answers h

end Answers

end Ralix.Kernel
