import Ralix.Arch.Exception
import Ralix.Dtb.Blob
import Ralix.Kernel.Process

/-!
# Open files

The namespace of `src/kernel/vfs.rs`, the functions of `src/kernel/process.rs` on descriptors, and the
system calls `open` and `close` of `src/kernel/syscall.rs`. A system call runs on the CPU that took
the exception, with interrupts off, and works on the process that is current there. It goes through
`PROCESS_TABLE` once, in `with_current_mut`, so a call is one critical section.
-/

namespace Ralix.Kernel

open Lib Arch
open Dtb (Bytes ascii Memory)

/-! ## The namespace -/

def oRead : BitVec 64 := 1 <<< 0
def oWrite : BitVec 64 := 1 <<< 1
def oAppend : BitVec 64 := 1 <<< 2

/-- `OpenFlags::from_bits`. -/
def OpenFlags.fromBits (bits : BitVec 64) : OpenFlags where
  read := bits &&& oRead ≠ 0
  write := bits &&& oWrite ≠ 0
  append := bits &&& oAppend ≠ 0

inductive NodeType where
  | dir
  | devFb0
  | devKbd0
deriving DecidableEq, Repr

/-- `lookup`. -/
def lookup (path : Bytes) : Option NodeType :=
  if path = ascii "/" then some .dir
  else if path = ascii "/dev" then some .dir
  else if path = ascii "/dev/fb0" then some .devFb0
  else if path = ascii "/dev/kbd0" then some .devKbd0
  else none

/-- `open_bytes`. -/
def openBytes (path : Bytes) (flags : OpenFlags) : Option FileDesc :=
  match lookup path with
  | some .devFb0 => some ⟨.devFb0, flags⟩
  | some .devKbd0 => some ⟨.devKbd0, flags⟩
  | _ => none

/-! ## Descriptors -/

/-- A process with a descriptor replaced. -/
def Process.setFd (proc : Process) (fd : Fin maxFds) (desc : Option FileDesc) : Process :=
  { proc with fds := Function.update proc.fds fd desc }

/-- `with_current_mut`: what `f` returns for the process that is current on the CPU, if there is one,
and the state with the process as `f` leaves it. -/
def withCurrentMut {α : Type} (cpu : Cpu) (f : Process → α × Process) (s : Sched) :
    Exec (Option α × Sched) :=
  if s.current cpu = invalidIdx then .ok (none, s)
  else do
    match ← s.table.get (s.current cpu) with
    | none => return (none, s)
    | some proc =>
      let table ← s.table.modify (s.current cpu) fun proc => (f proc).2
      return (some (f proc).1, { s with table })

/-- The loop of `alloc_fd_current`: the first free descriptor takes the file. -/
def allocFd (desc : FileDesc) (proc : Process) : Option (Fin maxFds) × Process :=
  match (List.finRange maxFds).find? fun fd => (proc.fds fd).isNone with
  | some fd => (some fd, proc.setFd fd (some desc))
  | none => (none, proc)

/-- `alloc_fd_current`. -/
def allocFdCurrent (cpu : Cpu) (desc : FileDesc) (s : Sched) : Exec (Option (Fin maxFds) × Sched) := do
  let (fd, s) ← withCurrentMut cpu (allocFd desc) s
  return (fd.join, s)

/-- `close_fd_current`. -/
def closeFdCurrent (cpu : Cpu) (fd : ℕ) (s : Sched) : Exec (Bool × Sched) :=
  if h : fd < maxFds then do
    let (closed, s) ← withCurrentMut cpu (fun proc => (true, proc.setFd ⟨fd, h⟩ none)) s
    return (closed.getD false, s)
  else .ok (false, s)

/-- `set_init_fd`. -/
def setInitFd (fd : ℕ) (desc : Option FileDesc) (s : Sched) : Sched :=
  if h : fd < maxFds then { s with initFds := Function.update s.initFds ⟨fd, h⟩ desc } else s

/-- `set_fd`: it returns whether there is such a descriptor and such a process. -/
def setFd (pid fd : ℕ) (desc : Option FileDesc) (s : Sched) : Bool × Sched :=
  if h : fd < maxFds then
    match slotOfPid s.table pid with
    | none => (false, s)
    | some i =>
      let table := s.table.setSlot i ((s.table.slots i).map fun proc => proc.setFd ⟨fd, h⟩ desc)
      (true, { s with table })
  else (false, s)

/-! ## System calls -/

/-- A general register of the caller. -/
def reg (frame : TrapFrame) (i : ℕ) : BitVec 64 := if h : i < 31 then frame.x ⟨i, h⟩ else 0

/-- The frame with a result in `x0`. -/
def ret (frame : TrapFrame) (value : BitVec 64) : TrapFrame :=
  { frame with x := fun i => if i.val = 0 then value else frame.x i }

/-- `u64::MAX`, the result of a call that fails. -/
def failure : BitVec 64 := BitVec.allOnes 64

/-- The `SYSCALL_OPEN` branch of `sync_handler`. -/
def sysOpen (cpu : Cpu) (mem : Memory) (frame : TrapFrame) (s : Sched) : Exec (TrapFrame × Sched) :=
  let ptr := reg frame 0
  let len := reg frame 1
  let flags := OpenFlags.fromBits (reg frame 2)
  if ptr = 0 ∨ len = 0 then .ok (ret frame failure, s)
  else
    match openBytes (mem.bytes ptr.toNat len.toNat) flags with
    | none => .ok (ret frame failure, s)
    | some desc => do
      match ← allocFdCurrent cpu desc s with
      | (some fd, s) => return (ret frame (BitVec.ofNat 64 fd), s)
      | (none, s) => return (ret frame failure, s)

/-- The `SYSCALL_CLOSE` branch of `sync_handler`. -/
def sysClose (cpu : Cpu) (frame : TrapFrame) (s : Sched) : Exec (TrapFrame × Sched) := do
  let (closed, s) ← closeFdCurrent cpu (reg frame 0).toNat s
  return (ret frame (if closed then 0 else failure), s)

end Ralix.Kernel
