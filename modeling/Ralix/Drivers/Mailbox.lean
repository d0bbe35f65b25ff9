import Ralix.Lib.Exec
import Ralix.Lib.Loop
import Ralix.Lib.Word
import Ralix.Platform.Board

/-!
# The mailbox

`call` of `src/drivers/mailbox.rs`, which sends the address of a buffer to the VC and waits for the same
word back. The device is arbitrary: a read returns whatever a function of all accesses before it says.

The loops of `call` are one loop over the places where it reads the status register. `spins` counts the
reads that found the mailbox full or empty, in either place, and `loops` the words for others. Every turn
counts in one of them or goes on to the second place, which is why `call` returns whatever the device
does, and `call_spec` bounds its reads.
-/

namespace Ralix.Drivers.Mailbox

open Lib Platform

def statusFull : UInt32 := (1 : UInt32) <<< 31
def statusEmpty : UInt32 := (1 : UInt32) <<< 30
def chProperty : UInt32 := 8
def responseOk : UInt32 := 0x80000000
def spinLimit : ℕ := 1000000

/-- What `call` accesses: the registers of the mailbox, and the second word of the buffer. -/
inductive Reg where
  | read
  | status
  | write
  | response
deriving DecidableEq, Repr

/-- The address of an access of `call` for a buffer. -/
def Reg.addr (board : Board) (buffer : ℕ) : Reg → ℕ
  | .read => mboxBase board + 0x00
  | .status => mboxBase board + 0x18
  | .write => mboxBase board + 0x20
  | .response => buffer + 4

/-- An access, with the value that was read or written. Only `write` is written. -/
structure Access where
  reg : Reg
  value : UInt32
deriving DecidableEq, Repr

/-- What a read returns after some accesses, the latest first. -/
abbrev Device := List Access → Reg → UInt32

/-- The number of reads. -/
def reads (log : List Access) : ℕ := log.countP fun a => a.reg ≠ .write

/-- The values that were read are those that the device returned. -/
def Answers (device : Device) : List Access → Prop
  | [] => True
  | a :: log => (a.reg ≠ .write → a.value = device log a.reg) ∧ Answers device log

/-- `arm_to_vc`. -/
def armToVc (board : Board) (addr : ℕ) : UInt32 :=
  (UInt32.ofNat addr &&& vcMemMask board) ||| vcMemBase board

/-- The word that `call` sends. -/
def busAddr (board : Board) (buffer : ℕ) : UInt32 := armToVc board buffer ||| chProperty

/-- Where `call` waits: for room in the mailbox, or for a word in it. -/
inductive Phase where
  | full
  | empty
deriving DecidableEq, Repr

/-- The variables of `call`, and its accesses so far. -/
structure Call where
  phase : Phase
  spins : ℕ
  loops : ℕ
  log : List Access

/-- The result of `call`, and its accesses. -/
abbrev Result := Bool × List Access

namespace Call

/-- `call` before its first access. -/
def start : Call := ⟨.full, 0, 0, []⟩

/-- The state after an access. -/
def access (s : Call) (r : Reg) (v : UInt32) : Call := { s with log := ⟨r, v⟩ :: s.log }

/-- The state after a read. -/
def load (s : Call) (device : Device) (r : Reg) : Call := s.access r (device s.log r)

/-- The body of both loops that wait. -/
def spin (s : Call) : Iter Call Result :=
  let spins := s.spins + 1
  if spins ≥ spinLimit then .done (false, s.log) else .next { s with spins }

/-- What `call` does when there is a word in the mailbox. -/
def receive (device : Device) (bus : UInt32) (s : Call) : Iter Call Result :=
  let resp := device s.log .read
  let s := s.load device .read
  if resp &&& 0xF = chProperty ∧ resp &&& ~~~0xF = bus &&& ~~~0xF then
    let status := device s.log .response
    let s := s.load device .response
    .done (status = responseOk, s.log)
  else
    let loops := s.loops + 1
    if loops ≥ spinLimit then .done (false, s.log) else .next { s with loops }

/-- `call` from one read of the status register to the next. -/
def turn (device : Device) (bus : UInt32) (s : Call) : Iter Call Result :=
  let status := device s.log .status
  let t := s.load device .status
  match s.phase with
  | .full =>
    if status &&& statusFull ≠ 0 then t.spin
    else .next { t.access .write bus with phase := .empty }
  | .empty => if status &&& statusEmpty ≠ 0 then t.spin else t.receive device bus

/-! ## One turn -/

section Turn

variable {device : Device} {bus : UInt32} {s s' : Call} {r : Result}

/-- A turn that waits counts. -/
theorem spin_eq_next (h : s.spin = .next s') :
    s.spins + 1 < spinLimit ∧ s' = { s with spins := s.spins + 1 } := by
  unfold spin at h
  dsimp only at h
  split at h
  · cases h
  · rename_i hlt
    cases h
    exact ⟨Nat.not_le.mp hlt, rfl⟩

/-- A turn that waits fails once it has counted to the limit. -/
theorem spin_eq_done (h : s.spin = .done r) : r = (false, s.log) := by
  unfold spin at h
  dsimp only at h
  split at h
  · cases h
    rfl
  · cases h

/-- What a turn leaves that goes on. -/
theorem turn_eq_next (h : turn device bus s = .next s') :
    (s.spins + 1 < spinLimit ∧ s' = { s.load device .status with spins := s.spins + 1 }) ∨
      (s.phase = .full ∧ s' = { (s.load device .status).access .write bus with phase := .empty }) ∨
      (s.phase = .empty ∧ s.loops + 1 < spinLimit ∧
        s' = { (s.load device .status).load device .read with loops := s.loops + 1 }) := by
  unfold turn at h
  dsimp only at h
  cases hphase : s.phase with
  | full =>
    rw [hphase] at h
    dsimp only at h
    split at h
    · exact .inl (spin_eq_next h)
    · cases h
      exact .inr (.inl ⟨rfl, rfl⟩)
  | empty =>
    rw [hphase] at h
    dsimp only at h
    split at h
    · exact .inl (spin_eq_next h)
    · unfold receive at h
      dsimp only at h
      split at h
      · cases h
      · split at h
        · cases h
        · rename_i hlt
          cases h
          exact .inr (.inr ⟨rfl, Nat.not_le.mp hlt, rfl⟩)

/-- What a turn returns that ends the call. -/
theorem turn_eq_done (h : turn device bus s = .done r) :
    r = (false, (s.load device .status).log) ∨
      r = (false, ((s.load device .status).load device .read).log) ∨
      ∃ word status, word &&& 0xF = chProperty ∧ word &&& ~~~0xF = bus &&& ~~~0xF ∧
        r = (decide (status = responseOk),
          (((s.load device .status).load device .read).load device .response).log) ∧
        ((s.load device .status).load device .read).log =
          ⟨.read, word⟩ :: (s.load device .status).log ∧
        status = device ((s.load device .status).load device .read).log .response := by
  unfold turn at h
  dsimp only at h
  cases hphase : s.phase with
  | full =>
    rw [hphase] at h
    dsimp only at h
    split at h
    · exact .inl (spin_eq_done h)
    · cases h
  | empty =>
    rw [hphase] at h
    dsimp only at h
    split at h
    · exact .inl (spin_eq_done h)
    · unfold receive at h
      dsimp only at h
      split at h
      · rename_i hmatch
        cases h
        exact .inr (.inr ⟨_, _, hmatch.1, hmatch.2, rfl, rfl, rfl⟩)
      · split at h
        · cases h
          exact .inr (.inl rfl)
        · cases h

/-- The turns that may follow: each counts in `spins` or `loops`, or goes on to the second wait. -/
def measure (s : Call) : ℕ :=
  (spinLimit - s.spins) + (spinLimit - s.loops) + if s.phase = .full then 1 else 0

/-- A turn that goes on decreases the measure. -/
theorem measure_turn (h : turn device bus s = .next s') : s'.measure < s.measure := by
  unfold measure
  rcases turn_eq_next h with ⟨hspins, rfl⟩ | ⟨hphase, rfl⟩ | ⟨hphase, hloops, rfl⟩
  · show (spinLimit - (s.spins + 1)) + (spinLimit - s.loops) + (if s.phase = .full then 1 else 0) < _
    omega
  · rw [if_pos hphase]
    exact Nat.lt_succ_self _
  · show (spinLimit - s.spins) + (spinLimit - (s.loops + 1)) + (if s.phase = .full then 1 else 0) < _
    omega

end Turn

/-- The loops of `call`. -/
def callLoop (device : Device) (bus : UInt32) : Loop Panic Call Result where
  body s := .ok (turn device bus s)
  measure := measure
  decreases h := measure_turn (Except.ok.inj h)

end Call

/-- `call`: its result, and its accesses, the latest first. -/
def call (board : Board) (device : Device) (buffer : ℕ) : Exec Result :=
  if buffer &&& 0xF ≠ 0 then .ok (false, [])
  else (Call.callLoop device (busAddr board buffer)).run Call.start

/-! ## Whole calls -/

namespace Call

/-- What holds before each turn of a call: the counters have not reached the limit, and they say how
many reads there were. -/
structure Inv (device : Device) (s : Call) : Prop where
  spins_lt : s.spins < spinLimit
  loops_lt : s.loops < spinLimit
  reads_eq : reads s.log = s.spins + 2 * s.loops + if s.phase = .empty then 1 else 0
  answers : Answers device s.log

/-- The accesses of a call that got its word and a good response. -/
def Accepted (bus : UInt32) (log : List Access) : Prop :=
  ∃ word before, log = ⟨.response, responseOk⟩ :: ⟨.read, word⟩ :: before ∧
    word &&& 0xF = chProperty ∧ word &&& ~~~0xF = bus &&& ~~~0xF

/-- What holds of a result. -/
structure Spec (device : Device) (bus : UInt32) (r : Result) : Prop where
  reads_le : reads r.2 ≤ 3 * spinLimit + 1
  answers : Answers device r.2
  accepted : r.1 = true → Accepted bus r.2

section Run

variable {device : Device} {bus : UInt32} {s s' : Call} {r : Result}

/-- A read is one more read. -/
theorem reads_load (s : Call) (device : Device) {r : Reg} (hr : r ≠ .write) :
    reads (s.load device r).log = reads s.log + 1 :=
  List.countP_cons_of_pos (by simpa using hr)

/-- A write is none. -/
theorem reads_write (s : Call) (v : UInt32) : reads (s.access .write v).log = reads s.log :=
  List.countP_cons_of_neg (by simp)

/-- A read has the value that the device returned. -/
theorem answers_load (h : Answers device s.log) (r : Reg) : Answers device (s.load device r).log :=
  ⟨fun _ => rfl, h⟩

/-- The invariant holds before the first turn. -/
theorem Inv.start (device : Device) : Inv device Call.start :=
  ⟨by decide, by decide, rfl, trivial⟩

/-- A turn keeps it. -/
theorem Inv.next (h : Inv device s) (hturn : turn device bus s = .next s') : Inv device s' := by
  have hstatus := reads_load s device (r := .status) (by decide)
  have hanswers := answers_load h.answers .status
  have hreads := h.reads_eq
  rcases turn_eq_next hturn with ⟨hspins, rfl⟩ | ⟨hphase, rfl⟩ | ⟨hphase, hloops, rfl⟩
  · refine ⟨hspins, h.loops_lt, ?_, hanswers⟩
    show reads (s.load device .status).log = s.spins + 1 + 2 * s.loops + if s.phase = .empty then 1 else 0
    omega
  · refine ⟨h.spins_lt, h.loops_lt, ?_, fun hne => absurd rfl hne, hanswers⟩
    rw [hphase] at hreads
    show reads ((s.load device .status).access .write bus).log = s.spins + 2 * s.loops + 1
    rw [reads_write, hstatus, hreads]
    rfl
  · refine ⟨h.spins_lt, hloops, ?_, answers_load hanswers .read⟩
    show reads ((s.load device .status).load device .read).log =
      s.spins + 2 * (s.loops + 1) + if s.phase = .empty then 1 else 0
    rw [reads_load _ _ (by decide), hstatus]
    omega

/-- A turn that ends the call returns what the specification says. -/
theorem Inv.done (h : Inv device s) (hturn : turn device bus s = .done r) : Spec device bus r := by
  have hstatus := reads_load s device (r := .status) (by decide)
  have hread := reads_load (s.load device .status) device (r := .read) (by decide)
  have hanswers := answers_load h.answers .status
  have hspins := h.spins_lt
  have hloops := h.loops_lt
  have hlog : reads s.log ≤ s.spins + 2 * s.loops + 1 := by
    rw [h.reads_eq]
    split <;> omega
  rcases turn_eq_done hturn with rfl | rfl | ⟨word, status, hchannel, hbuffer, rfl, hword, rfl⟩
  · exact ⟨by show reads (s.load device .status).log ≤ _; omega, hanswers, nofun⟩
  · refine ⟨?_, answers_load hanswers .read, nofun⟩
    show reads ((s.load device .status).load device .read).log ≤ _
    omega
  · have hresponse := reads_load ((s.load device .status).load device .read) device (r := .response)
      (by decide)
    refine ⟨?_, answers_load (answers_load hanswers .read) .response, fun hok => ?_⟩
    · show reads (((s.load device .status).load device .read).load device .response).log ≤ _
      omega
    · refine ⟨word, (s.load device .status).log, ?_, hchannel, hbuffer⟩
      rw [← of_decide_eq_true hok, ← hword]
      rfl

/-- The loops of `call` return what the specification says. -/
theorem callLoop_spec (device : Device) (bus : UInt32) :
    ∃ r, (callLoop device bus).run Call.start = .ok r ∧ Spec device bus r := by
  obtain ⟨t, hreach, ⟨e, hbody, -⟩ | ⟨r, hbody, hrun⟩⟩ := (callLoop device bus).run_cases Call.start
  · cases hbody
  · have ht : Inv device t := hreach.inv (fun hs hnext => hs.next (Except.ok.inj hnext)) (.start device)
    exact ⟨r, hrun, ht.done (Except.ok.inj hbody)⟩

end Run

end Call

/-- The bus address of a buffer: the VC sees the low 32 bits of an address, and on `qemu` the low 30. -/
theorem armToVc_toNat (board : Board) (addr : ℕ) : (armToVc board addr).toNat =
    match board with
    | .rpi5 => addr % 2^32
    | .qemu => 2^30 + addr % 2^30 := by
  unfold armToVc
  rw [UInt32.toNat_or, UInt32.toNat_and, UInt32.toNat_ofNat']
  cases board with
  | rpi5 =>
    show addr % 2^32 &&& (2^32 - 1) ||| 0 = addr % 2^32
    rw [and_lowMask, Nat.mod_mod, Nat.or_zero]
  | qemu =>
    show addr % 2^32 &&& (2^30 - 1) ||| 2^30 = 2^30 + addr % 2^30
    have hlt : addr % 2^30 < 2^30 := Nat.mod_lt _ (by decide)
    rw [and_lowMask, Nat.mod_mod_of_dvd _ (by decide), Nat.or_comm, or_low (k := 30) (by decide) hlt]

/-- Without the channel, the word that `call` sends is the bus address of its buffer. -/
theorem busAddr_and (board : Board) {buffer : ℕ} (h : buffer &&& 0xF = 0) :
    busAddr board buffer &&& ~~~0xF = armToVc board buffer := by
  have halign : buffer % 2^4 = 0 := by rwa [show (0xF : ℕ) = 2^4 - 1 from rfl, and_lowMask] at h
  have hlow : (armToVc board buffer).toNat % 2^4 = 0 := by
    rw [armToVc_toNat]
    cases board with
    | rpi5 => show buffer % 2^32 % 2^4 = 0; omega
    | qemu => show (2^30 + buffer % 2^30) % 2^4 = 0; omega
  have hlt := (armToVc board buffer).toNat_lt
  have hsum : (busAddr board buffer).toNat = (armToVc board buffer).toNat + 8 := by
    rw [busAddr, UInt32.toNat_or]
    exact or_low (k := 4) hlow (by decide)
  rw [← UInt32.toNat_inj, UInt32.toNat_and, hsum, show (~~~(0xF : UInt32)).toNat = 2^32 - 2^4 from rfl,
    and_highMask (by omega) (by decide)]
  omega

/-- `call` returns whatever the device does, after a bounded number of reads. If it returns true, the
last word that it read from the mailbox had the property channel and the bus address of the buffer, and
then the response in the buffer was good. -/
theorem call_spec (board : Board) (device : Device) (buffer : ℕ) :
    ∃ ok log, call board device buffer = .ok (ok, log) ∧ reads log ≤ 3 * spinLimit + 1 ∧
      Answers device log ∧
      (ok = true → ∃ word before, log = ⟨.response, responseOk⟩ :: ⟨.read, word⟩ :: before ∧
        word &&& 0xF = chProperty ∧ word &&& ~~~0xF = armToVc board buffer) := by
  unfold call
  by_cases halign : buffer &&& 0xF = 0
  · rw [if_neg (not_not.mpr halign)]
    obtain ⟨⟨ok, log⟩, hrun, hspec⟩ := Call.callLoop_spec device (busAddr board buffer)
    refine ⟨ok, log, hrun, hspec.reads_le, hspec.answers, fun hok => ?_⟩
    obtain ⟨word, before, hlog, hchannel, hbuffer⟩ := hspec.accepted hok
    exact ⟨word, before, hlog, hchannel, hbuffer.trans (busAddr_and board halign)⟩
  · rw [if_pos halign]
    exact ⟨false, [], rfl, Nat.zero_le _, trivial, nofun⟩

/-- A mailbox that answers at once with the word for the buffer at `0x200000`. -/
def promptDevice : Device := fun _ r =>
  match r with
  | .read => 0x200008
  | .response => responseOk
  | _ => 0

/-- The call for that buffer gets through. -/
theorem call_promptDevice : call .rpi5 promptDevice 0x200000 = .ok (true,
    [⟨.response, responseOk⟩, ⟨.read, 0x200008⟩, ⟨.status, 0⟩, ⟨.write, 0x200008⟩, ⟨.status, 0⟩]) := by
  show (Call.callLoop promptDevice (busAddr .rpi5 0x200000)).run Call.start = _
  have hsent : (Call.callLoop promptDevice (busAddr .rpi5 0x200000)).body Call.start =
      .ok (.next ⟨.empty, 0, 0, [⟨.write, 0x200008⟩, ⟨.status, 0⟩]⟩) := rfl
  rw [Loop.run_next _ hsent]
  exact Loop.run_done _ rfl

/-- `call_spec` at that mailbox. -/
theorem call_spec_promptDevice :
    ∃ word before, [⟨.response, responseOk⟩, ⟨.read, 0x200008⟩, ⟨.status, 0⟩, ⟨.write, 0x200008⟩,
        ⟨.status, 0⟩] = (⟨.response, responseOk⟩ : Access) :: ⟨.read, word⟩ :: before ∧
      word &&& 0xF = chProperty ∧ word &&& ~~~0xF = armToVc .rpi5 0x200000 := by
  obtain ⟨ok, log, hcall, -, -, haccepted⟩ := call_spec .rpi5 promptDevice 0x200000
  rw [call_promptDevice, Except.ok.injEq, Prod.mk.injEq] at hcall
  obtain ⟨rfl, rfl⟩ := hcall
  exact haccepted rfl

end Ralix.Drivers.Mailbox
