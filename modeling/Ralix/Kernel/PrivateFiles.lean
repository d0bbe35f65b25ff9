import Ralix.Kernel.Syscall
import Ralix.Lib.Object
import Mathlib.Data.Finset.Max

/-!
# Files of one's own

What a process sees of `sync_handler`. On the one side are runs of the whole machine: CPUs are started
and scheduled, processes are created and move from one CPU to another, and any of them may be in a
system call. On the other side is a file table that one process has for itself (`serveFiles`). The
lowest free descriptor is the one that is opened, and a descriptor says whether a read goes to the
keyboard, and a write to the console.

`files_refine` says that, for each process, the calls of a run are a history of such a table, from the
one that it inherited. `files_alone` draws the conclusion for two runs. Whatever else happens in them,
a process that asks for the same gets the same answers.
-/

namespace Ralix.Kernel

open Lib Arch ProcessTable
open Dtb (Bytes Memory ascii)

/-! ## A file table -/

/-- A request for files. A buffer that is null or empty is none. -/
inductive FileRequest where
  | openFile (path : Option Bytes) (flags : OpenFlags)
  | closeFile (fd : ℕ)
  | readFile (fd : ℕ) (buf : Option (BitVec 64 × ℕ))
  | writeFile (fd : ℕ) (bytes : Option Bytes)
  /-- The kernel sets the descriptor. -/
  | setFile (fd : Fin maxFds) (desc : Option FileDesc)

/-- An answer: a value, or a device that gives one. -/
inductive FileReply where
  | value (w : BitVec 64)
  | keyboard (ptr : BitVec 64) (len : ℕ)
  | console (bytes : Bytes)
  | nothing

/-- The descriptors that are free. -/
def freeFds (t : FdTable) : Finset (Fin maxFds) := Finset.univ.filter fun fd => t fd = none

/-- The file behind a descriptor, if there is one. -/
def fileAt (t : FdTable) (fd : ℕ) : Option FileDesc := if h : fd < maxFds then t ⟨fd, h⟩ else none

/-- Where a read goes. -/
def readReply (desc : FileDesc) (ptr : BitVec 64) (len : ℕ) : FileReply :=
  if desc.flags.read = true ∧ desc.handle = .devKbd0 then .keyboard ptr len else .value 0

/-- Where a write goes. -/
def writeReply (desc : FileDesc) (bytes : Bytes) : FileReply :=
  if desc.flags.write = true ∧ desc.handle = .devFb0 then .console bytes else .value 0

/-- A file is opened at the lowest descriptor that is free. -/
def openAt (t : FdTable) (desc : FileDesc) : FileReply × FdTable :=
  if h : (freeFds t).Nonempty then
    (.value (BitVec.ofNat 64 ((freeFds t).min' h)),
      Function.update t ((freeFds t).min' h) (some desc))
  else (.value failure, t)

/-- What a table answers, and the table after it. -/
def serveFiles (t : FdTable) : FileRequest → FileReply × FdTable
  | .openFile path flags =>
    match path.bind fun path => openBytes path flags with
    | some desc => openAt t desc
    | none => (.value failure, t)
  | .closeFile fd =>
    if h : fd < maxFds then (.value 0, Function.update t ⟨fd, h⟩ none) else (.value failure, t)
  | .readFile fd buf =>
    match buf with
    | none => (.value 0, t)
    | some (ptr, len) =>
      ((fileAt t fd).elim (.value failure) fun desc => readReply desc ptr len, t)
  | .writeFile fd bytes =>
    match bytes with
    | none => (.value 0, t)
    | some bytes => ((fileAt t fd).elim (.value failure) fun desc => writeReply desc bytes, t)
  | .setFile fd desc => (.nothing, Function.update t fd desc)

/-! ## The machine -/

/-- A step of the machine, with what `sync_handler` did if it is a call of it. -/
inductive KernelEvent where
  | op (op : Op)
  | sync (cpu : Cpu) (mem : Memory) (esr far : BitVec 64) (frame : TrapFrame) (branch : SyncBranch)
  | setFd (pid fd : ℕ) (desc : Option FileDesc)
  | setInitFd (fd : ℕ) (desc : Option FileDesc)

/-- A step that returned. -/
def KernelEvent.Step (env : Env) (s : Sched) (e : KernelEvent) (s' : Sched) : Prop :=
  match e with
  | op o => o.Step env s s'
  | sync cpu mem esr far frame branch =>
    syncHandler cpu mem esr far frame s = .ok (branch, s')
  | setFd pid fd desc => s' = (Kernel.setFd pid fd desc s).2
  | setInitFd fd desc => s' = Kernel.setInitFd fd desc s

/-- A buffer of the caller, by its pointer and length. -/
def buffer (ptr : BitVec 64) (len : ℕ) : Option (BitVec 64 × ℕ) :=
  if ptr = 0 ∨ len = 0 then none else some (ptr, len)

/-- The request for files in a frame. -/
def fileRequest (mem : Memory) (esr : BitVec 64) (frame : TrapFrame) : Option FileRequest :=
  if exceptionClass esr ≠ ecSvc then none
  else if reg frame 8 = syscallOpen then
    some (.openFile ((buffer (reg frame 0) (reg frame 1).toNat).map fun b => mem.bytes b.1.toNat b.2)
      (OpenFlags.fromBits (reg frame 2)))
  else if reg frame 8 = syscallRead then
    some (.readFile (reg frame 0).toNat (buffer (reg frame 1) (reg frame 2).toNat))
  else if reg frame 8 = syscallWrite then
    some (.writeFile (reg frame 0).toNat
      ((buffer (reg frame 1) (reg frame 2).toNat).map fun b => mem.bytes b.1.toNat b.2))
  else if reg frame 8 = syscallClose then some (.closeFile (reg frame 0).toNat)
  else none

/-- What a branch answers to a request for files. -/
def SyncBranch.fileReply : SyncBranch → FileReply
  | done frame => .value (reg frame 0)
  | call (.keyboard ptr len) _ => .keyboard ptr len
  | call (.console bytes) _ => .console bytes
  | _ => .nothing

/-- The requests of a step to the files of the process in a slot, with the answers. -/
def fileCalls (i : Fin maxProcs) (x : Transition Sched KernelEvent) : List (FileRequest × FileReply) :=
  match x.act with
  | .sync cpu mem esr _ frame branch =>
    if x.pre.current cpu = i.val then
      (fileRequest mem esr frame).toList.map fun r => (r, branch.fileReply)
    else []
  | .setFd pid fd desc =>
    if h : fd < maxFds then
      if (x.pre.table.slots i).any (·.id = pid) then [(.setFile ⟨fd, h⟩ desc, .nothing)] else []
    else []
  | _ => []

/-- The file table of the process in a slot. -/
def Sched.filesOf (i : Fin maxProcs) (s : Sched) : Option FdTable := (s.table.slots i).map (·.fds)

/-- The state in which the process of a slot has another table. -/
def Sched.withFiles (s : Sched) (i : Fin maxProcs) (p : Process) (fds : FdTable) : Sched :=
  { s with table := s.table.setSlot i (some { p with fds }) }

section Current

variable {s s' : Sched} {cpu : Cpu} {i : Fin maxProcs} {p : Process}

/-- The slot has the table that it got. -/
@[simp] theorem filesOf_withFiles (fds : FdTable) : (s.withFiles i p fds).filesOf i = some fds := by
  simp [Sched.filesOf, Sched.withFiles]

/-- The other slots have theirs. -/
theorem filesOf_withFiles_of_ne {j : Fin maxProcs} (h : j ≠ i) (fds : FdTable) :
    (s.withFiles i p fds).filesOf j = s.filesOf j := by
  rw [Sched.filesOf, Sched.withFiles, setSlot_slots_of_ne h, Sched.filesOf]

/-- A process that gets the table it has is as it was. -/
theorem withFiles_self (hp : s.table.slots i = some p) : s.withFiles i p p.fds = s := by
  have hset : s.table.setSlot i (some p) = s.table := by
    rw [← hp, setSlot, Function.update_eq_self]
  exact congrArg (fun table => { s with table }) hset

/-- A slot is no invalid index. -/
theorem current_ne_invalid (hi : s.current cpu = i.val) : s.current cpu ≠ invalidIdx :=
  hi ▸ slot_ne_invalidIdx i

/-- `with_current_mut` works on the current process. -/
theorem withCurrentMut_current {α : Type} (hi : s.current cpu = i.val)
    (hp : s.table.slots i = some p) (f : Process → α × Process) :
    withCurrentMut cpu f s =
      .ok (some (f p).1, { s with table := s.table.setSlot i (some (f p).2) }) := by
  rw [withCurrentMut, if_neg (current_ne_invalid hi), hi]
  simp [hp]

/-- `get_fd_current` looks in the table of the current process. -/
theorem getFdCurrent_current (hi : s.current cpu = i.val) (hp : s.table.slots i = some p) (fd : ℕ) :
    getFdCurrent cpu fd s = .ok (fileAt p.fds fd) := by
  unfold getFdCurrent fileAt
  split
  · rw [withCurrent, if_neg (current_ne_invalid hi), hi]
    simp [hp]
  · rfl

/-- `alloc_fd_current` takes the lowest free descriptor. -/
theorem allocFd_eq (desc : FileDesc) (p : Process) :
    allocFd desc p = if h : (freeFds p.fds).Nonempty then
      (some ((freeFds p.fds).min' h), p.setFd ((freeFds p.fds).min' h) (some desc)) else (none, p) := by
  have hmem : ∀ fd, fd ∈ freeFds p.fds ↔ p.fds fd = none := by simp [freeFds]
  unfold allocFd
  cases hfind : (List.finRange maxFds).find? fun fd => (p.fds fd).isNone with
  | none =>
    have hnone : ¬(freeFds p.fds).Nonempty := by
      rintro ⟨fd, hfd⟩
      have hfull := List.find?_eq_none.mp hfind fd (List.mem_finRange fd)
      exact hfull (by rw [(hmem fd).mp hfd]; rfl)
    rw [dif_neg hnone]
  | some fd =>
    obtain ⟨hfree, n, hn, hfd, hbefore⟩ := List.find?_eq_some_iff_getElem.mp hfind
    have hfree' : fd ∈ freeFds p.fds := (hmem fd).mpr (by simpa using hfree)
    have hne : (freeFds p.fds).Nonempty := ⟨fd, hfree'⟩
    -- The descriptors before it are in use, so it is the least.
    have hmin : (freeFds p.fds).min' hne = fd := by
      refine le_antisymm (Finset.min'_le _ _ hfree') ?_
      by_contra hlt
      have hval : n = fd.val := by simpa using congrArg Fin.val hfd
      have hused := hbefore ((freeFds p.fds).min' hne).val (by omega)
      simp [(hmem _).mp (Finset.min'_mem _ hne)] at hused
    rw [dif_pos hne, hmin]

/-- A process that gets a descriptor gets another table. -/
theorem setFd_eq (p : Process) (fd : Fin maxFds) (desc : Option FileDesc) :
    p.setFd fd desc = { p with fds := Function.update p.fds fd desc } := rfl

/-- `alloc_fd_current` opens the file in the table of the current process. -/
theorem allocFdCurrent_current (hi : s.current cpu = i.val) (hp : s.table.slots i = some p)
    (desc : FileDesc) :
    ∃ fd, allocFdCurrent cpu desc s = .ok (fd, s.withFiles i p (openAt p.fds desc).2) ∧
      (openAt p.fds desc).1 = .value (fd.elim failure fun fd => BitVec.ofNat 64 fd) := by
  rw [allocFdCurrent, withCurrentMut_current hi hp, allocFd_eq, openAt]
  split
  · exact ⟨_, rfl, rfl⟩
  · exact ⟨none, rfl, rfl⟩

/-! ## A call of the handler -/

/-- What a call of the handler is to the current process: its table serves the request, if the call is
one for files, and nothing else changes. -/
def Served (s : Sched) (i : Fin maxProcs) (p : Process) (request : Option FileRequest)
    (reply : FileReply) (s' : Sched) : Prop :=
  ∃ fds, s' = s.withFiles i p fds ∧
    History serveFiles p.fds (request.toList.map fun r => (r, reply)) fds

/-- A request that the table serves. -/
theorem Served.of_serve {r : FileRequest} {reply : FileReply} {fds : FdTable}
    (h : serveFiles p.fds r = (reply, fds)) : Served s i p (some r) reply (s.withFiles i p fds) :=
  ⟨fds, rfl, .single h⟩

/-- A request that changes nothing. -/
theorem Served.of_same {r : FileRequest} {reply : FileReply} (hp : s.table.slots i = some p)
    (h : serveFiles p.fds r = (reply, p.fds)) : Served s i p (some r) reply s := by
  have hserved := Served.of_serve (s := s) (i := i) h
  rwa [withFiles_self hp] at hserved

/-- A call that is none for files. -/
theorem Served.none {reply : FileReply} (hp : s.table.slots i = some p) :
    Served s i p Option.none reply s :=
  ⟨p.fds, (withFiles_self hp).symm, .nil p.fds⟩

/-- A result in `x0` is the answer. -/
theorem fileReply_ret (frame : TrapFrame) (w : BitVec 64) :
    (SyncBranch.done (ret frame w)).fileReply = .value w := rfl

/-- The branch for `open` serves the request. -/
theorem sysOpen_served (hi : s.current cpu = i.val) (hp : s.table.slots i = some p) {mem : Memory}
    {frame frame' : TrapFrame} (h : sysOpen cpu mem frame s = .ok (frame', s')) :
    Served s i p (some (.openFile ((buffer (reg frame 0) (reg frame 1).toNat).map fun b =>
      mem.bytes b.1.toNat b.2) (OpenFlags.fromBits (reg frame 2))))
      (SyncBranch.done frame').fileReply s' := by
  have hlen : reg frame 1 = 0 ↔ (reg frame 1).toNat = 0 := BitVec.toNat_eq
  unfold sysOpen at h
  dsimp only at h
  unfold buffer
  split at h
  next hnone =>
    cases h
    rw [hlen] at hnone
    rw [if_pos hnone]
    exact .of_same hp rfl
  next hsome =>
    rw [hlen] at hsome
    rw [if_neg hsome, Option.map_some]
    split at h
    next hopen =>
      cases h
      refine .of_same hp ?_
      simp [serveFiles, hopen, fileReply_ret]
    next desc hopen =>
      obtain ⟨fd, hfd, hreply⟩ := allocFdCurrent_current hi hp desc
      have hserve : serveFiles p.fds (.openFile (some (mem.bytes (reg frame 0).toNat
          (reg frame 1).toNat)) (OpenFlags.fromBits (reg frame 2))) = openAt p.fds desc := by
        simp [serveFiles, hopen]
      rw [hfd] at h
      cases fd <;>
        (cases h
         exact .of_serve (hserve.trans (Prod.ext hreply rfl)))

/-- The branch for `close` serves the request. -/
theorem sysClose_served (hi : s.current cpu = i.val) (hp : s.table.slots i = some p)
    {frame frame' : TrapFrame} (h : sysClose cpu frame s = .ok (frame', s')) :
    Served s i p (some (.closeFile (reg frame 0).toNat)) (SyncBranch.done frame').fileReply s' := by
  unfold sysClose closeFdCurrent at h
  split at h
  next hfd =>
    rw [withCurrentMut_current hi hp] at h
    cases h
    refine .of_serve ?_
    rw [serveFiles, dif_pos hfd]
    rfl
  next hfd =>
    cases h
    refine .of_same hp ?_
    rw [serveFiles, dif_neg hfd]
    rfl

/-- `vfs::read` answers what the descriptor says. -/
theorem vfsRead_reply (desc : FileDesc) (ptr : BitVec 64) (len : ℕ) (frame : TrapFrame) :
    (vfsRead desc ptr len frame).fileReply = readReply desc ptr len := by
  obtain ⟨handle, read, write, append⟩ := desc
  cases read <;> cases handle <;> rfl

/-- `vfs::write` answers what the descriptor says. -/
theorem vfsWrite_reply (desc : FileDesc) (bytes : Bytes) (frame : TrapFrame) :
    (vfsWrite desc bytes frame).fileReply = writeReply desc bytes := by
  obtain ⟨handle, read, write, append⟩ := desc
  cases write <;> cases handle <;> rfl

/-- The branch for `read` serves the request. -/
theorem sysRead_served (hi : s.current cpu = i.val) (hp : s.table.slots i = some p)
    {frame : TrapFrame} {b : SyncBranch} (h : sysRead cpu frame s = .ok b) :
    Served s i p (some (.readFile (reg frame 0).toNat (buffer (reg frame 1) (reg frame 2).toNat)))
      b.fileReply s := by
  refine .of_same hp ?_
  unfold sysRead at h
  dsimp only at h
  unfold buffer
  split at h
  next hnone =>
    cases h
    rw [if_pos hnone]
    rfl
  next hsome =>
    rw [if_neg hsome]
    rw [getFdCurrent_current hi hp, Exec.ok_bind] at h
    cases hfd : fileAt p.fds (reg frame 0).toNat with
    | none =>
      rw [hfd] at h
      cases h
      simp [serveFiles, hfd, fileReply_ret]
    | some desc =>
      rw [hfd] at h
      cases h
      simp [serveFiles, hfd, vfsRead_reply]

/-- The branch for `write` serves the request. -/
theorem sysWrite_served (hi : s.current cpu = i.val) (hp : s.table.slots i = some p) {mem : Memory}
    {frame : TrapFrame} {b : SyncBranch} (h : sysWrite cpu mem frame s = .ok b) :
    Served s i p (some (.writeFile (reg frame 0).toNat
      ((buffer (reg frame 1) (reg frame 2).toNat).map fun b => mem.bytes b.1.toNat b.2)))
      b.fileReply s := by
  refine .of_same hp ?_
  unfold sysWrite at h
  dsimp only at h
  unfold buffer
  split at h
  next hnone =>
    cases h
    rw [if_pos hnone]
    rfl
  next hsome =>
    rw [if_neg hsome]
    rw [getFdCurrent_current hi hp, Exec.ok_bind] at h
    cases hfd : fileAt p.fds (reg frame 0).toNat with
    | none =>
      rw [hfd] at h
      cases h
      simp [serveFiles, hfd, fileReply_ret]
    | some desc =>
      rw [hfd] at h
      cases h
      simp [serveFiles, hfd, vfsWrite_reply]

/-- After a `svc`, the table of the current process serves the request. -/
theorem svcHandler_served (hi : s.current cpu = i.val) (hp : s.table.slots i = some p) {mem : Memory}
    {esr : BitVec 64} (hsvc : exceptionClass esr = ecSvc) {frame : TrapFrame} {b : SyncBranch}
    (h : svcHandler cpu mem frame s = .ok (b, s')) :
    Served s i p (fileRequest mem esr frame) b.fileReply s' := by
  unfold svcHandler at h
  dsimp only at h
  rw [fileRequest, if_neg (not_not.mpr hsvc)]
  by_cases hopen : reg frame 8 = syscallOpen
  · rw [if_pos hopen] at h ⊢
    obtain ⟨⟨frame', s''⟩, hr, h⟩ := Exec.bind_eq_ok.mp h
    cases h
    exact sysOpen_served hi hp hr
  rw [if_neg hopen] at h ⊢
  by_cases hread : reg frame 8 = syscallRead
  · rw [if_pos hread] at h ⊢
    obtain ⟨b', hr, h⟩ := Exec.bind_eq_ok.mp h
    cases h
    exact sysRead_served hi hp hr
  rw [if_neg hread] at h ⊢
  by_cases hwrite : reg frame 8 = syscallWrite
  · rw [if_pos hwrite] at h ⊢
    obtain ⟨b', hr, h⟩ := Exec.bind_eq_ok.mp h
    cases h
    exact sysWrite_served hi hp hr
  rw [if_neg hwrite] at h ⊢
  by_cases hclose : reg frame 8 = syscallClose
  · rw [if_pos hclose] at h ⊢
    obtain ⟨⟨frame', s''⟩, hr, h⟩ := Exec.bind_eq_ok.mp h
    cases h
    exact sysClose_served hi hp hr
  rw [if_neg hclose] at h ⊢
  -- The other calls are none for files, and leave the table alone.
  have hsame : s' = s := by
    split at h
    · exact (Prod.mk.inj (Except.ok.inj h)).2.symm
    split at h
    · exact (Prod.mk.inj (Except.ok.inj h)).2.symm
    split at h
    · exact (Prod.mk.inj (Except.ok.inj h)).2.symm
    split at h
    · exact (Prod.mk.inj (Except.ok.inj h)).2.symm
    · exact (Prod.mk.inj (Except.ok.inj h)).2.symm
  rw [hsame]
  exact .none hp

/-- At any exception, the table of the current process serves the request, if there is one. -/
theorem syncHandler_served (hi : s.current cpu = i.val) (hp : s.table.slots i = some p)
    {mem : Memory} {esr far : BitVec 64} {frame : TrapFrame} {b : SyncBranch}
    (h : syncHandler cpu mem esr far frame s = .ok (b, s')) :
    Served s i p (fileRequest mem esr frame) b.fileReply s' := by
  unfold syncHandler at h
  by_cases hsvc : exceptionClass esr = ecSvc
  · rw [if_neg (not_not.mpr hsvc)] at h
    exact svcHandler_served hi hp hsvc h
  · rw [if_pos hsvc] at h
    rw [fileRequest, if_pos hsvc, ← (Prod.mk.inj (Except.ok.inj h)).2]
    exact .none hp

/-- The handler changes nothing, or the table of the current process. -/
theorem syncHandler_edits {mem : Memory} {esr far : BitVec 64} {frame : TrapFrame} {b : SyncBranch}
    (h : syncHandler cpu mem esr far frame s = .ok (b, s')) :
    Edits (fun i _ => s.current cpu = i.val) s s' := by
  unfold syncHandler svcHandler at h
  dsimp only at h
  split at h
  · exact (Prod.mk.inj (Except.ok.inj h)).2 ▸ .none
  split at h
  · obtain ⟨⟨frame', s''⟩, hr, h⟩ := Exec.bind_eq_ok.mp h
    cases h
    exact (sysOpen_cases hr).1
  split at h
  · obtain ⟨b', hr, h⟩ := Exec.bind_eq_ok.mp h
    cases h
    exact .none
  split at h
  · obtain ⟨b', hr, h⟩ := Exec.bind_eq_ok.mp h
    cases h
    exact .none
  split at h
  · obtain ⟨⟨frame', s''⟩, hr, h⟩ := Exec.bind_eq_ok.mp h
    cases h
    exact (sysClose_cases hr).1
  split at h
  · exact (Prod.mk.inj (Except.ok.inj h)).2 ▸ .none
  split at h
  · exact (Prod.mk.inj (Except.ok.inj h)).2 ▸ .none
  split at h
  · exact (Prod.mk.inj (Except.ok.inj h)).2 ▸ .none
  split at h
  · exact (Prod.mk.inj (Except.ok.inj h)).2 ▸ .none
  · exact (Prod.mk.inj (Except.ok.inj h)).2 ▸ .none

end Current

/-! ## Runs -/

section Runs

variable {env : Env} {s s' : Sched} {e : KernelEvent} {i : Fin maxProcs}

/-- Every step keeps the invariant. -/
theorem Housed.kernelEvent (h : Housed s) (hs : e.Step env s s') : Housed s' := by
  cases e with
  | op o => exact h.op hs
  | sync cpu mem esr far frame branch => exact h.edits (syncHandler_edits hs)
  | setFd pid fd desc =>
    cases hs
    exact h.edits (setFd_cases pid fd desc s)
  | setInitFd fd desc =>
    cases hs
    exact h.event (show FdEvent.Step env s (.setInitFd fd desc) _ from rfl)

/-- An edit that is none of a slot's process leaves its table alone. -/
theorem Edits.filesOf {target : Fin maxProcs → Process → Prop} (h : Edits target s s')
    (hother : ∀ p, s.table.slots i = some p → ¬target i p) : s'.filesOf i = s.filesOf i := by
  cases h with
  | none => rfl
  | edit j p fds hp hacts =>
    have hne : i ≠ j := by
      rintro rfl
      exact hother p hp hacts
    exact filesOf_withFiles_of_ne hne fds

/-- The tables of processes with the same files are the same. -/
theorem filesOf_of_files (h : s'.table.files i = s.table.files i) : s'.filesOf i = s.filesOf i := by
  have hsnd := congrArg (Option.map Prod.snd) h
  rw [ProcessTable.files, ProcessTable.files, Option.map_map, Option.map_map] at hsnd
  exact hsnd

/-- A creation serves nobody: the tables that there are stay. -/
theorem createWithMode_serves (h : Housed s) (name : String) (entry stackTop : ℕ) (mode : ProcessMode)
    (parent : Option ℕ) : StepServes serveFiles (s.filesOf i) []
      ((createWithMode env name entry stackTop mode parent s).2.filesOf i) := by
  cases hfree : freeSlot s.table with
  | none =>
    rw [createWithMode_none env name entry stackTop mode parent hfree]
    exact .idle rfl
  | some j =>
    have hnone := slots_of_freeSlot hfree
    obtain ⟨p, t, he, -, -, -, -, -, -, -, -, -, hother⟩ := createWithMode_some env name entry
      stackTop mode parent hfree (h.placed.length_lt (h.placed.free hnone).1)
    rw [he]
    by_cases hij : i = j
    · refine .absent_of ?_
      rw [Sched.filesOf, hij, hnone, Option.map_none]
    · refine .idle ?_
      rw [Sched.filesOf, hother i hij, Sched.filesOf]

/-- `set_fd` serves the process with the pid. -/
theorem setFd_serves (h : Housed s) (pid fd : ℕ) (desc : Option FileDesc) :
    StepServes serveFiles (s.filesOf i) (fileCalls i ⟨s, .setFd pid fd desc, (setFd pid fd desc s).2⟩)
      ((setFd pid fd desc s).2.filesOf i) := by
  simp only [fileCalls, setFd]
  split
  next hfd =>
    cases htarget : slotOfPid s.table pid with
    | none =>
      have hany := List.find?_eq_none.mp htarget i (List.mem_finRange i)
      rw [if_neg hany]
      exact .idle rfl
    | some j =>
      have hj : (s.table.slots j).any (·.id = pid) = true := by simpa using List.find?_some htarget
      obtain ⟨p, hp, hid⟩ := (Option.any_eq_true _ _).mp hj
      dsimp only
      rw [hp, Option.map_some]
      by_cases hij : i = j
      · rw [hij, if_pos hj]
        refine ⟨fun hnone => ?_, fun x hx => ⟨_, filesOf_withFiles (p := p) _, .single ?_⟩⟩
        · rw [Sched.filesOf, hp] at hnone
          cases hnone
        · rw [Sched.filesOf, hp, Option.map_some, Option.some.injEq] at hx
          rw [← hx]
          rfl
      · -- pids are apart, so this is not the process with the pid
        have hany : ¬(s.table.slots i).any (·.id = pid) = true := by
          intro hany
          obtain ⟨q, hq, hid'⟩ := (Option.any_eq_true _ _).mp hany
          have hpid := of_decide_eq_true hid
          have hpid' := of_decide_eq_true hid'
          exact hij (h.slot_inj hq hp (hpid'.trans hpid.symm))
        rw [if_neg hany]
        exact .idle (filesOf_withFiles_of_ne (p := p) hij _)
  next hfd => exact .idle rfl

/-- A call of the handler serves the current process. -/
theorem syncHandler_serves (h : Housed s) {cpu : Cpu} {mem : Memory} {esr far : BitVec 64}
    {frame : TrapFrame} {b : SyncBranch} (hs : syncHandler cpu mem esr far frame s = .ok (b, s')) :
    StepServes serveFiles (s.filesOf i) (fileCalls i ⟨s, .sync cpu mem esr far frame b, s'⟩)
      (s'.filesOf i) := by
  simp only [fileCalls]
  split
  next hi =>
    -- A current slot holds a process.
    obtain ⟨p, hp⟩ := h.placed.exists_current hi
    obtain ⟨fds, rfl, hhist⟩ := syncHandler_served hi hp hs
    have hfiles : s.filesOf i = some p.fds := by rw [Sched.filesOf, hp, Option.map_some]
    refine ⟨fun hnone => absurd (hfiles.symm.trans hnone) nofun, fun x hx => ⟨fds, ?_, ?_⟩⟩
    · exact filesOf_withFiles fds
    · rw [hfiles, Option.some.injEq] at hx
      exact hx ▸ hhist
  next hi => exact .idle ((syncHandler_edits hs).filesOf fun _ _ => hi)

/-- Every step serves the process of a slot. -/
theorem KernelEvent.Step.serves (h : Housed s) (hs : e.Step env s s') :
    StepServes serveFiles (s.filesOf i) (fileCalls i ⟨s, e, s'⟩) (s'.filesOf i) := by
  cases e with
  | op o =>
    cases o with
    | create name entry stackTop mode parent =>
      cases hs
      exact createWithMode_serves h name entry stackTop mode parent
    | start cpu =>
      obtain ⟨⟨r, s''⟩, hr, hs'⟩ := Exec.bind_eq_ok.mp hs
      cases hs'
      exact .idle (filesOf_of_files ((h.placed.starts hr).files i))
    | schedule cpu frame =>
      obtain ⟨⟨r, s''⟩, hr, hs'⟩ := Exec.bind_eq_ok.mp hs
      cases hs'
      exact .idle (filesOf_of_files ((h.placed.schedules hr).files i))
  | sync cpu mem esr far frame branch => exact syncHandler_serves h hs
  | setFd pid fd desc =>
    cases hs
    exact setFd_serves h pid fd desc
  | setInitFd fd desc =>
    cases hs
    refine .idle ?_
    unfold Kernel.setInitFd
    split
    · rfl
    · rfl

/-- The step in which the process of a slot came into being is its creation, and its table is that of
its parent. -/
theorem KernelEvent.Step.born (h : Housed s) {fds : FdTable} (hs : e.Step env s s')
    (hborn : Born (Sched.filesOf i) ⟨s, e, s'⟩ fds) : ∃ name entry stackTop mode parent,
      e = .op (.create name entry stackTop mode parent) ∧ s.Inherits parent fds := by
  obtain ⟨hpre, hpost⟩ := hborn
  have hslot : s.table.slots i = none := Option.map_eq_none_iff.mp hpre
  -- No other step gives an empty slot a table.
  have hsame : s'.filesOf i = s.filesOf i → False := by
    intro hsame
    rw [hsame, hpre] at hpost
    cases hpost
  cases e with
  | op o =>
    cases o with
    | create name entry stackTop mode parent =>
      cases hs
      obtain ⟨p, hp, rfl⟩ := Option.map_eq_some_iff.mp hpost
      obtain ⟨name', entry', stackTop', mode', parent', he, hinherits⟩ :=
        (FdsIsolated.create h env name entry stackTop mode parent).created i p hslot hp
      cases he
      exact ⟨name, entry, stackTop, mode, parent, rfl, hinherits⟩
    | start cpu =>
      obtain ⟨⟨r, s''⟩, hr, hs'⟩ := Exec.bind_eq_ok.mp hs
      cases hs'
      exact (hsame (filesOf_of_files ((h.placed.starts hr).files i))).elim
    | schedule cpu frame =>
      obtain ⟨⟨r, s''⟩, hr, hs'⟩ := Exec.bind_eq_ok.mp hs
      cases hs'
      exact (hsame (filesOf_of_files ((h.placed.schedules hr).files i))).elim
  | sync cpu mem esr far frame branch =>
    refine (hsame ((syncHandler_edits hs).filesOf fun p hp => ?_)).elim
    rw [hslot] at hp
    cases hp
  | setFd pid fd desc =>
    cases hs
    refine (hsame ((setFd_cases pid fd desc s).filesOf fun p hp => ?_)).elim
    rw [hslot] at hp
    cases hp
  | setInitFd fd desc =>
    cases hs
    refine (hsame ?_).elim
    unfold Kernel.setInitFd
    split
    · rfl
    · rfl

end Runs

/-- What the process of a slot asked for, and what it was answered. -/
def filesLog (i : Fin maxProcs) (ts : List (Transition Sched KernelEvent)) :
    List (FileRequest × FileReply) := yielded (fileCalls i) ts

/-- The process of a slot was created in a run, with the table of its parent. -/
def Inherited (ts : List (Transition Sched KernelEvent)) (i : Fin maxProcs) (fds : FdTable) : Prop :=
  ∃ t ∈ ts, Born (Sched.filesOf i) t fds ∧ ∃ name entry stackTop mode parent,
    t.act = .op (.create name entry stackTop mode parent) ∧ t.pre.Inherits parent fds

section Histories

variable {env : Env} {ts : List (Transition Sched KernelEvent)} {s : Sched} {i : Fin maxProcs}
  {p : Process}

/-- A process was created, with the table of its parent. -/
theorem exists_inherited (h : Trace init (KernelEvent.Step env) ts s) (hp : s.table.slots i = some p) :
    ∃ fds, Inherited ts i fds := by
  have hfiles : s.filesOf i = some p.fds := by rw [Sched.filesOf, hp, Option.map_some]
  obtain ⟨⟨t, ht, fds, hborn⟩, -⟩ := (h.history (Sched.filesOf i) (fileCalls i) Housed.init
    (fun _ _ _ => Housed.kernelEvent) rfl fun _ _ _ => KernelEvent.Step.serves).2 _ hfiles
  obtain ⟨hhoused, hstep⟩ := h.of_mem Housed.init (fun _ _ _ => Housed.kernelEvent) t ht
  exact ⟨fds, t, ht, hborn, KernelEvent.Step.born hhoused hstep hborn⟩

/-- The calls of a process are a history of its table. -/
theorem Inherited.history {fds : FdTable} (hin : Inherited ts i fds)
    (h : Trace init (KernelEvent.Step env) ts s) (hp : s.table.slots i = some p) :
    History serveFiles fds (filesLog i ts) p.fds := by
  have hfiles : s.filesOf i = some p.fds := by rw [Sched.filesOf, hp, Option.map_some]
  obtain ⟨t, ht, hborn, -⟩ := hin
  exact ((h.history (Sched.filesOf i) (fileCalls i) Housed.init (fun _ _ _ => Housed.kernelEvent) rfl
    fun _ _ _ => KernelEvent.Step.serves).2 _ hfiles).2 t ht fds hborn

end Histories

/-- In every run, each process inherited a table from its parent, and its calls are a history of that
table, as if it were alone. -/
theorem files_refine (env : Env) (ts : List (Transition Sched KernelEvent)) (s : Sched)
    (h : Trace init (KernelEvent.Step env) ts s) (i : Fin maxProcs) (p : Process)
    (hp : s.table.slots i = some p) :
    ∃ fds, Inherited ts i fds ∧ History serveFiles fds (filesLog i ts) p.fds := by
  obtain ⟨fds, hin⟩ := exists_inherited h hp
  exact ⟨fds, hin, hin.history h hp⟩

/-- The path of the console, in memory. -/
def pathMem : Memory := fun a => (ascii "/dev/fb0").getD (a - 0x1000) 0

/-- A call of `open` for the console, for writing. -/
def openCall (cpu : Cpu) (b : SyncBranch) : KernelEvent :=
  .sync cpu pathMem (ecSvc <<< 26) 0 (svcFrame zeroFrame syscallOpen [0x1000, 8, 2]) b

/-- What a call returned, and the state after it, if it returned. -/
def afterOpen (cpu : Cpu) (s : Sched) : SyncBranch × Sched :=
  match syncHandler cpu pathMem (ecSvc <<< 26) 0 (svcFrame zeroFrame syscallOpen [0x1000, 8, 2]) s with
  | .ok r => r
  | .error _ => (.done zeroFrame, s)

/-- The state after a CPU was started, if there was a process for it. -/
def afterStart (cpu : Cpu) (s : Sched) : Sched :=
  match startOnCpu cpu s with
  | .ok r => r.2
  | .error _ => s

/-- The shell, on a CPU. -/
def shellStarted : Sched := afterStart 0 shellCreated

/-- The shell opens the console, and there is nobody else. -/
def shellAlone : List (Transition Sched KernelEvent) :=
  [⟨shellStarted, openCall 0 (afterOpen 0 shellStarted).1, (afterOpen 0 shellStarted).2⟩,
    ⟨shellCreated, .op (.start 0), shellStarted⟩,
    ⟨init, .op (.create "shell" 0x80000 0 .user none), shellCreated⟩]

/-- This is a run. -/
theorem trace_shellAlone :
    Trace init (KernelEvent.Step sampleEnv) shellAlone (afterOpen 0 shellStarted).2 :=
  .cons (.cons (.cons .nil rfl) rfl) rfl

/-- What the shell asked for, and what it was answered. -/
theorem filesLog_shellAlone : filesLog 0 shellAlone =
    [(.openFile (some (ascii "/dev/fb0")) ⟨false, true, false⟩, .value 0)] := rfl

/-- The shell inherited no files. -/
theorem inherited_shellAlone : Inherited shellAlone 0 fun _ => none :=
  ⟨_, .tail _ (.tail _ (.head _)), ⟨rfl, rfl⟩, "shell", 0x80000, 0, .user, none, rfl,
    Housed.init.inherits none⟩

/-- `files_refine` for the shell: the descriptor that it got is the lowest of a table without files. -/
theorem files_refine_shell : ∃ p fds, (afterOpen 0 shellStarted).2.table.slots 0 = some p ∧
    Inherited shellAlone 0 fds ∧ History serveFiles fds
      [(.openFile (some (ascii "/dev/fb0")) ⟨false, true, false⟩, .value 0)] p.fds := by
  obtain ⟨fds, hin, hhist⟩ := files_refine sampleEnv _ _ trace_shellAlone 0 _ rfl
  rw [filesLog_shellAlone] at hhist
  exact ⟨_, fds, rfl, hin, hhist⟩

/-- Two processes, of any two runs, that inherited the same table and asked for the same got the same
answers, and have the same table. -/
theorem files_alone (env env' : Env) (ts ts' : List (Transition Sched KernelEvent)) (s s' : Sched)
    (h : Trace init (KernelEvent.Step env) ts s) (h' : Trace init (KernelEvent.Step env') ts' s')
    (i i' : Fin maxProcs) (p p' : Process) (hp : s.table.slots i = some p)
    (hp' : s'.table.slots i' = some p') (fds : FdTable) (hin : Inherited ts i fds)
    (hin' : Inherited ts' i' fds)
    (hasked : (filesLog i ts).map Prod.fst = (filesLog i' ts').map Prod.fst) :
    filesLog i ts = filesLog i' ts' ∧ p.fds = p'.fds :=
  (hin.history h hp).unique (hin'.history h' hp') hasked

/-- Two processes were created, and started on two CPUs. -/
def pairStarted : Sched :=
  afterStart 1 (afterStart 0 (createWithMode sampleEnv "shell" 0x80000 0 .user none
    (createWithMode sampleEnv "idle" 0x90000 0 .kernel none init).2).2)

/-- The shell opens the console, after another process has done so. -/
def shellSecond : List (Transition Sched KernelEvent) :=
  let idle := (createWithMode sampleEnv "idle" 0x90000 0 .kernel none init).2
  let both := (createWithMode sampleEnv "shell" 0x80000 0 .user none idle).2
  let opened := afterOpen 0 pairStarted
  [⟨opened.2, openCall 1 (afterOpen 1 opened.2).1, (afterOpen 1 opened.2).2⟩,
    ⟨pairStarted, openCall 0 opened.1, opened.2⟩, ⟨afterStart 0 both, .op (.start 1), pairStarted⟩,
    ⟨both, .op (.start 0), afterStart 0 both⟩,
    ⟨idle, .op (.create "shell" 0x80000 0 .user none), both⟩,
    ⟨init, .op (.create "idle" 0x90000 0 .kernel none), idle⟩]

/-- This is a run. -/
theorem trace_shellSecond : Trace init (KernelEvent.Step sampleEnv) shellSecond
    (afterOpen 1 (afterOpen 0 pairStarted).2).2 :=
  .cons (.cons (.cons (.cons (.cons (.cons .nil rfl) rfl) rfl) rfl) rfl) rfl

/-- The shell inherited no files. -/
theorem inherited_shellSecond : Inherited shellSecond 1 fun _ => none :=
  ⟨_, .tail _ (.tail _ (.tail _ (.tail _ (.head _)))), ⟨rfl, rfl⟩, "shell", 0x80000, 0, .user, none,
    rfl, (Housed.init.create sampleEnv "idle" 0x90000 0 .kernel none).inherits none⟩

/-- `files_alone` for the shell: it is all the same to it whether there is another process. -/
theorem files_alone_shell : filesLog 0 shellAlone = filesLog 1 shellSecond :=
  (files_alone sampleEnv sampleEnv _ _ _ _ trace_shellAlone trace_shellSecond 0 1 _ _ rfl rfl _
    inherited_shellAlone inherited_shellSecond rfl).1

end Ralix.Kernel
