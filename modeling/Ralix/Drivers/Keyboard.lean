import Ralix.Lib.Ring
import Ralix.Lib.Trace

/-!
# The keyboard

`src/drivers/keyboard.rs`, and of `src/drivers/uart.rs` the receiving side. The timer interrupt of
any CPU calls `poll`, which moves bytes from the UART to `INPUT_BUF`, and `read` calls `poll` and
then takes bytes from the buffer. `Keyboard.step` is one step of one of these calls: a turn of a loop,
or an attempt at the lock. A context that makes calls is a thread or an interrupt handler, which may
run on the CPU of a context that holds the lock. `delivered` and `taken` only record what happened:
the bytes that `read` wrote to its callers' buffers, and the bytes read from the data register.

A byte is taken from the UART before `push` says whether there is room for it, so a full buffer loses
it. `conserved_iff` says that nothing else is lost, doubled, or put out of order.
-/

namespace Ralix.Drivers

open Lib

/-- `BUF_SIZE`. -/
def bufSize : ℕ := 256

instance : NeZero bufSize := ⟨by decide⟩

/-- `RingBuffer`. -/
abbrev RingBuffer := Ring UInt8 bufSize

/-- `RingBuffer::push`: whether there was room, and the buffer after it. -/
def pushByte (buf : RingBuffer) (b : UInt8) : Bool × RingBuffer :=
  if buf.len = bufSize then (false, buf) else (true, buf.push b)

/-- The receiving side of the UART. -/
structure Uart where
  /-- `UART_READY`. -/
  ready : Bool
  /-- The receive FIFO, the oldest byte first. -/
  fifo : List UInt8
  /-- The bytes that were read from the data register. -/
  taken : List UInt8

/-- `read_byte_nonblocking`. -/
def Uart.readByteNonblocking (u : Uart) : Option UInt8 × Uart :=
  if u.ready = false then (none, u)
  else
    match u.fifo with
    | [] => (none, u)
    | b :: fifo => (some b, { u with fifo := fifo, taken := u.taken ++ [b] })

/-- What `poll` makes of a byte: `'\r'` becomes `'\n'`. -/
def crToLf (b : UInt8) : UInt8 := if b = 13 then 10 else b

/-- A thread, or a run of an interrupt handler. -/
abbrev Ctx := ℕ

/-- Where a context is in a call. -/
inductive Phase where
  | idle
  /-- In the loop of `poll`, holding the lock. A `read` that called `poll` has so many slots. -/
  | polling (spins : ℕ) (slots : Option ℕ)
  /-- In `read`, before the lock. -/
  | waiting (slots : ℕ)
  /-- In the loop of `read`, holding the lock, with so many slots left. -/
  | reading (slots : ℕ)
deriving DecidableEq

/-- The UART, `INPUT_BUF` and its lock, and the contexts that use them. -/
structure Keyboard where
  uart : Uart
  buf : RingBuffer
  lock : Option Ctx
  phase : Ctx → Phase
  /-- The bytes that `read` has written to its callers' buffers. -/
  delivered : List UInt8

/-- A step of a context, or of the world. -/
inductive Action where
  /-- A byte arrives at the UART. -/
  | arrive (b : UInt8)
  /-- `uart::init` sets `UART_READY`. -/
  | init
  /-- A call of `poll`, up to the result of `try_lock`. -/
  | poll (c : Ctx)
  /-- A call of `read`, up to the result of `try_lock` in its `poll`. -/
  | read (c : Ctx) (slots : ℕ)
  /-- A turn of the loop of `poll`. -/
  | pollByte (c : Ctx)
  /-- `INPUT_BUF.lock()` in `read`. -/
  | lock (c : Ctx)
  /-- A turn of the loop of `read`. -/
  | readByte (c : Ctx)

namespace Keyboard

/-- The keyboard at boot. -/
def boot : Keyboard where
  uart := ⟨false, [], []⟩
  buf := Ring.new bufSize 0
  lock := none
  phase _ := .idle
  delivered := []

/-- The keyboard with a context in another phase. -/
def setPhase (k : Keyboard) (c : Ctx) (p : Phase) : Keyboard :=
  { k with phase := Function.update k.phase c p }

/-- Where a context goes on after `poll`: back from the interrupt, or on in `read`. -/
def afterPoll : Option ℕ → Phase
  | none => .idle
  | some slots => .waiting slots

/-- The start of `poll`: with `try_lock`, the context enters the loop or is done. -/
def startPoll (k : Keyboard) (c : Ctx) (slots : Option ℕ) : Keyboard :=
  if k.lock = none then { k with lock := some c }.setPhase c (.polling 0 slots)
  else k.setPhase c (afterPoll slots)

/-- The end of `poll`: the guard is dropped. -/
def endPoll (k : Keyboard) (c : Ctx) (slots : Option ℕ) : Keyboard :=
  { k with lock := none }.setPhase c (afterPoll slots)

/-- A turn of the loop of `poll`. -/
def pollTurn (k : Keyboard) (c : Ctx) (spins : ℕ) (slots : Option ℕ) : Keyboard :=
  match k.uart.readByteNonblocking with
  | (none, _) => k.endPoll c slots
  | (some byte, uart) =>
    let k := { k with uart := uart }
    match pushByte k.buf (crToLf byte) with
    | (false, _) => k.endPoll c slots
    | (true, buf) =>
      let k := { k with buf := buf }
      if spins + 1 ≥ bufSize then k.endPoll c slots
      else k.setPhase c (.polling (spins + 1) slots)

/-- A turn of the loop of `read`, with so many slots left. It ends the call without a slot, and
without a byte. -/
def readTurn (k : Keyboard) (c : Ctx) : ℕ → Keyboard
  | 0 => { k with lock := none }.setPhase c .idle
  | slots + 1 =>
    match k.buf.pop with
    | some (b, buf) =>
      { k with buf := buf, delivered := k.delivered ++ [b] }.setPhase c (.reading slots)
    | none => { k with lock := none }.setPhase c .idle

/-- One step. It is `none` where the context cannot take the step. -/
def step : Action → Keyboard → Option Keyboard
  | .arrive b, k => some { k with uart := { k.uart with fifo := k.uart.fifo ++ [b] } }
  | .init, k => some { k with uart := { k.uart with ready := true } }
  | .poll c, k => if k.phase c = .idle then some (k.startPoll c none) else none
  | .read c slots, k => if k.phase c = .idle then some (k.startPoll c (some slots)) else none
  | .pollByte c, k =>
    match k.phase c with
    | .polling spins slots => some (k.pollTurn c spins slots)
    | _ => none
  | .lock c, k =>
    match k.phase c, k.lock with
    | .waiting slots, none => some ({ k with lock := some c }.setPhase c (.reading slots))
    | _, _ => none
  | .readByte c, k =>
    match k.phase c with
    | .reading slots => some (k.readTurn c slots)
    | _ => none

/-- A step that an action takes. -/
def Step (k : Keyboard) (a : Action) (k' : Keyboard) : Prop := k.step a = some k'

/-- What was delivered and what is in the buffer are the bytes that were taken, in order. -/
def Conserved (k : Keyboard) : Prop :=
  k.delivered ++ k.buf.toList = k.uart.taken.map crToLf

end Keyboard

/-- The condition for a step to lose nothing: a turn of the loop of `poll` that finds a byte in the
UART finds room in the buffer. -/
def Action.Fits (k : Keyboard) : Action → Prop
  | pollByte _ => k.uart.ready = true → k.uart.fifo ≠ [] → k.buf.len < bufSize
  | _ => True

namespace Keyboard

variable {k k' : Keyboard}

/-- Nothing is taken before the first step. -/
theorem conserved_boot : boot.Conserved := by
  simp [Conserved, boot]

/-- A buffer with room takes a byte at its end. -/
theorem pushByte_of_lt {buf : RingBuffer} (b : UInt8) (h : buf.len < bufSize) :
    pushByte buf b = (true, buf.push b) ∧ (buf.push b).toList = buf.toList ++ [b] :=
  ⟨if_neg (Nat.ne_of_lt h), Ring.toList_push buf b h⟩

/-- Nothing is read from a UART that is not set up, or has no byte. -/
theorem readByteNonblocking_none {u : Uart} (h : u.ready = false ∨ u.fifo = []) :
    u.readByteNonblocking = (none, u) := by
  unfold Uart.readByteNonblocking
  rcases h with h | h
  · exact if_pos h
  · rw [h]
    exact ite_self _

/-- The oldest byte is read from a UART that has one. -/
theorem readByteNonblocking_some {u : Uart} {b : UInt8} {fifo : List UInt8} (hready : u.ready = true)
    (hfifo : u.fifo = b :: fifo) :
    u.readByteNonblocking = (some b, { u with fifo := fifo, taken := u.taken ++ [b] }) := by
  simp [Uart.readByteNonblocking, hready, hfifo]

/-- A turn of the loop of `poll` loses a byte exactly if it takes one while the buffer is full. -/
theorem conserved_pollTurn (hc : k.Conserved) (c : Ctx) (spins : ℕ) (slots : Option ℕ) :
    (k.pollTurn c spins slots).Conserved ↔
      (k.uart.ready = true → k.uart.fifo ≠ [] → k.buf.len < bufSize) := by
  have hle : k.buf.len ≤ bufSize := k.buf.len_le
  by_cases hnone : k.uart.ready = false ∨ k.uart.fifo = []
  · rw [pollTurn, readByteNonblocking_none hnone]
    refine iff_of_true hc fun hready hne => ?_
    rcases hnone with h | h
    · rw [hready] at h
      cases h
    · exact absurd h hne
  rw [not_or, Bool.not_eq_false] at hnone
  obtain ⟨hready, hne⟩ := hnone
  obtain ⟨b, fifo, hfifo⟩ := List.exists_cons_of_ne_nil hne
  rw [pollTurn, readByteNonblocking_some hready hfifo]
  by_cases hfull : k.buf.len = bufSize
  · -- The byte is gone, and the buffer is as it was.
    dsimp only
    rw [pushByte, if_pos hfull]
    refine iff_of_false (fun hc' => ?_) fun hfit => absurd (hfit hready hne) (by omega)
    have hlen := congrArg List.length hc
    have hlen' := congrArg List.length hc'
    simp only [endPoll, setPhase, List.length_append, List.length_map, List.length_cons,
      List.length_nil] at hlen hlen'
    omega
  · have hlt : k.buf.len < bufSize := by omega
    obtain ⟨hpush, hlist⟩ := pushByte_of_lt (crToLf b) hlt
    refine iff_of_true ?_ fun _ _ => hlt
    dsimp only
    rw [hpush]
    have hmoved : k.delivered ++ (k.buf.push (crToLf b)).toList =
        (k.uart.taken ++ [b]).map crToLf := by
      rw [hlist, ← List.append_assoc, List.map_append, hc]
      rfl
    dsimp only
    split
    · exact hmoved
    · exact hmoved

/-- A turn of the loop of `read` moves a byte from the buffer to the caller. -/
theorem conserved_readTurn (hc : k.Conserved) (c : Ctx) (slots : ℕ) :
    (k.readTurn c slots).Conserved := by
  match slots with
  | 0 => exact hc
  | slots + 1 =>
    match hpop : k.buf.pop with
    | none =>
      rw [readTurn, hpop]
      exact hc
    | some (b, buf) =>
      rw [readTurn, hpop]
      show k.delivered ++ [b] ++ buf.toList = k.uart.taken.map crToLf
      rw [← hc, Ring.toList_pop hpop, List.append_assoc]
      rfl

/-- The start of `poll` moves no byte. -/
theorem Conserved.startPoll (hc : k.Conserved) (c : Ctx) (slots : Option ℕ) :
    (k.startPoll c slots).Conserved := by
  unfold Keyboard.startPoll
  split <;> exact hc

/-- A step loses nothing exactly if the byte that it takes, if any, fits. -/
theorem conserved_step (hc : k.Conserved) {a : Action} (h : k.Step a k') :
    k'.Conserved ↔ a.Fits k := by
  cases a with
  | arrive b =>
    cases h
    exact iff_of_true hc trivial
  | init =>
    cases h
    exact iff_of_true hc trivial
  | poll c =>
    obtain ⟨-, he⟩ := Option.ite_none_right_eq_some.mp h
    cases he
    exact iff_of_true (hc.startPoll c _) trivial
  | read c slots =>
    obtain ⟨-, he⟩ := Option.ite_none_right_eq_some.mp h
    cases he
    exact iff_of_true (hc.startPoll c _) trivial
  -- only a byte that is taken from the hardware can be lost
  | pollByte c =>
    rw [Step, step] at h
    split at h
    · cases h
      exact conserved_pollTurn hc c _ _
    · cases h
  | lock c =>
    rw [Step, step] at h
    split at h
    · cases h
      exact iff_of_true hc trivial
    · cases h
  | readByte c =>
    rw [Step, step] at h
    split at h
    · cases h
      exact iff_of_true (conserved_readTurn hc c _) trivial
    · cases h

end Keyboard

open Keyboard

/-- In a run of the keyboard, what `read` has delivered and what is in the buffer are the bytes taken
from the UART, in order, in every state, exactly if every byte that a turn of the loop of `poll`
takes finds room in the buffer. -/
theorem conserved_iff (ts : List (Transition Keyboard Action)) (k : Keyboard)
    (h : Trace boot Step ts k) :
    (∀ k' ∈ reached boot ts, k'.Conserved) ↔ ∀ x ∈ ts, x.act.Fits x.pre :=
  h.always_iff (P := fun _ => True) trivial (fun _ _ _ _ _ => trivial) conserved_boot
    fun _ _ _ _ hc hs => conserved_step hc hs

/-- The arrival of the first byte. -/
def arrival : Transition Keyboard Action where
  pre := boot
  act := .arrive 97
  post := { boot with uart := ⟨false, [97], []⟩ }

/-- `conserved_iff` for the arrival of a byte. -/
theorem conserved_iff_arrival : arrival.post.Conserved :=
  (conserved_iff [arrival] arrival.post (.cons .nil rfl)).mpr (by simp [arrival, Action.Fits]) _
    (.head _)

/-! ## What a step moves -/

/-- The bytes that arrive with a step. -/
def Action.arrivals : Action → List UInt8
  | arrive b => [b]
  | _ => []

/-- The slots that a call of `read` has left, in a context that is in one. -/
def Phase.slots : Phase → Option ℕ
  | idle => none
  | polling _ slots => slots
  | waiting slots => some slots
  | reading slots => some slots

/-- The bytes that have arrived at the UART. -/
def Uart.received (u : Uart) : List UInt8 := u.taken ++ u.fifo

/-- A read moves a byte, and loses none. -/
theorem Uart.received_read (u : Uart) : u.readByteNonblocking.2.received = u.received := by
  unfold Uart.readByteNonblocking
  split
  · rfl
  · split
    · rfl
    · rename_i hfifo
      simp [Uart.received, hfifo]

namespace Keyboard

variable {k k' : Keyboard}

/-- A turn of the loop of `poll` that finds a byte, and room for it. -/
theorem pollTurn_some {b : UInt8} {fifo : List UInt8} (c : Ctx) {spins : ℕ} (slots : Option ℕ)
    (hready : k.uart.ready = true) (hfifo : k.uart.fifo = b :: fifo) (hlt : k.buf.len < bufSize)
    (hspins : spins + 1 < bufSize) :
    k.pollTurn c spins slots =
      { k with
        uart := { k.uart with fifo := fifo, taken := k.uart.taken ++ [b] }
        buf := k.buf.push (crToLf b) }.setPhase c (.polling (spins + 1) slots) := by
  rw [pollTurn, readByteNonblocking_some hready hfifo]
  dsimp only
  rw [(pushByte_of_lt (crToLf b) hlt).1]
  dsimp only
  rw [if_neg (Nat.not_le.mpr hspins)]

/-- A turn that finds no byte. -/
theorem pollTurn_none (c : Ctx) (spins : ℕ) (slots : Option ℕ) (hfifo : k.uart.fifo = []) :
    k.pollTurn c spins slots = k.endPoll c slots := by
  rw [pollTurn, readByteNonblocking_none (.inr hfifo)]

/-- A turn of the loop of `poll` is one of its ends, or goes on with one spin more. It reads the UART,
and delivers nothing. -/
theorem pollTurn_cases (k : Keyboard) (c : Ctx) (spins : ℕ) (slots : Option ℕ) :
    (k.pollTurn c spins slots).uart = k.uart.readByteNonblocking.2 ∧
      (k.pollTurn c spins slots).delivered = k.delivered ∧
      ∃ p, (k.pollTurn c spins slots).phase = Function.update k.phase c p ∧ p.slots = slots := by
  have hafter : (afterPoll slots).slots = slots := by cases slots <;> rfl
  by_cases hnone : k.uart.ready = false ∨ k.uart.fifo = []
  · rw [pollTurn, readByteNonblocking_none hnone]
    exact ⟨rfl, rfl, _, rfl, hafter⟩
  rw [not_or, Bool.not_eq_false] at hnone
  obtain ⟨b, fifo, hfifo⟩ := List.exists_cons_of_ne_nil hnone.2
  rw [pollTurn, readByteNonblocking_some hnone.1 hfifo]
  dsimp only
  split
  · exact ⟨rfl, rfl, _, rfl, hafter⟩
  · split
    · exact ⟨rfl, rfl, _, rfl, hafter⟩
    · exact ⟨rfl, rfl, _, rfl, rfl⟩

/-- The start of `poll` moves nothing. -/
theorem startPoll_cases (k : Keyboard) (c : Ctx) (slots : Option ℕ) :
    (k.startPoll c slots).uart = k.uart ∧ (k.startPoll c slots).delivered = k.delivered ∧
      ∃ p, (k.startPoll c slots).phase = Function.update k.phase c p ∧ p.slots = slots := by
  unfold startPoll
  split
  · exact ⟨rfl, rfl, _, rfl, rfl⟩
  · exact ⟨rfl, rfl, _, rfl, by cases slots <;> rfl⟩

/-- A turn of the loop of `read` ends the call, or fills a slot. -/
theorem readTurn_cases (k : Keyboard) (c : Ctx) (slots : ℕ) :
    (k.readTurn c slots).uart = k.uart ∧
      ((k.readTurn c slots).delivered = k.delivered ∧
          (k.readTurn c slots).phase = Function.update k.phase c .idle ∨
        ∃ n b, slots = n + 1 ∧ (k.readTurn c slots).delivered = k.delivered ++ [b] ∧
          (k.readTurn c slots).phase = Function.update k.phase c (.reading n)) := by
  match slots with
  | 0 => exact ⟨rfl, .inl ⟨rfl, rfl⟩⟩
  | n + 1 =>
    match hpop : k.buf.pop with
    | none =>
      rw [readTurn, hpop]
      exact ⟨rfl, .inl ⟨rfl, rfl⟩⟩
    | some (b, buf) =>
      rw [readTurn, hpop]
      exact ⟨rfl, .inr ⟨n, b, rfl, rfl, rfl⟩⟩

/-- A context in the loop of `poll` can take a turn. -/
theorem step_pollByte {c : Ctx} {spins : ℕ} {slots : Option ℕ} (h : k.phase c = .polling spins slots) :
    k.Step (.pollByte c) (k.pollTurn c spins slots) := by
  rw [Step, step, h]

/-- A context in the loop of `read` can take a turn. -/
theorem step_readByte {c : Ctx} {slots : ℕ} (h : k.phase c = .reading slots) :
    k.Step (.readByte c) (k.readTurn c slots) := by
  rw [Step, step, h]

/-- What arrives with a step is what has arrived more after it. -/
theorem received_step {a : Action} (h : k.Step a k') :
    k'.uart.received = k.uart.received ++ a.arrivals := by
  -- Only arrivals and the loop of `poll` touch the UART.
  have hkeep : k'.uart = k.uart → k'.uart.received = k.uart.received ++ [] := by
    intro huart
    rw [huart, List.append_nil]
  cases a with
  | arrive b =>
    cases h
    exact (List.append_assoc _ _ _).symm
  | init =>
    cases h
    exact (List.append_nil _).symm
  | poll c =>
    obtain ⟨-, he⟩ := Option.ite_none_right_eq_some.mp h
    cases he
    exact hkeep (k.startPoll_cases c none).1
  | read c slots =>
    obtain ⟨-, he⟩ := Option.ite_none_right_eq_some.mp h
    cases he
    exact hkeep (k.startPoll_cases c (some slots)).1
  | pollByte c =>
    rw [Step, step] at h
    split at h
    · rename_i spins slots _
      cases h
      rw [(k.pollTurn_cases c spins slots).1, k.uart.received_read]
      exact (List.append_nil _).symm
    · cases h
  | lock c =>
    rw [Step, step] at h
    split at h
    · cases h
      exact hkeep rfl
    · cases h
  | readByte c =>
    rw [Step, step] at h
    split at h
    · rename_i slots _
      cases h
      exact hkeep (k.readTurn_cases c slots).1
    · cases h

/-- What a step other than the start of `read` delivers. Either nothing, and no context has got slots by
it, or a byte, to a context with a slot left. -/
theorem step_cases {a : Action} (ha : ∀ c slots, a ≠ .read c slots) (h : k.Step a k') :
    k'.delivered = k.delivered ∧
        (∀ d, (k'.phase d).slots = (k.phase d).slots ∨ (k'.phase d).slots = none) ∨
      ∃ c n b, (k.phase c).slots = some (n + 1) ∧ k'.delivered = k.delivered ++ [b] ∧
        k'.phase = Function.update k.phase c (.reading n) := by
  -- A context comes to a phase with as many slots as it had, or with none.
  have hupdate : ∀ c p, p.slots = (k.phase c).slots ∨ p.slots = none →
      ∀ d, (Function.update k.phase c p d).slots = (k.phase d).slots ∨
        (Function.update k.phase c p d).slots = none := by
    intro c p hp d
    by_cases hd : d = c
    · subst hd
      rwa [Function.update_self]
    · rw [Function.update_of_ne hd]
      exact .inl rfl
  cases a with
  | arrive b =>
    cases h
    exact .inl ⟨rfl, fun _ => .inl rfl⟩
  | init =>
    cases h
    exact .inl ⟨rfl, fun _ => .inl rfl⟩
  | poll c =>
    obtain ⟨-, he⟩ := Option.ite_none_right_eq_some.mp h
    cases he
    obtain ⟨-, hdelivered, p, hphase, hp⟩ := k.startPoll_cases c none
    rw [hphase]
    exact .inl ⟨hdelivered, hupdate c p (.inr hp)⟩
  | read c slots => exact absurd rfl (ha c slots)
  | pollByte c =>
    rw [Step, step] at h
    split at h
    · rename_i spins slots hpolling
      cases h
      obtain ⟨-, hdelivered, p, hphase, hp⟩ := k.pollTurn_cases c spins slots
      rw [hphase]
      refine .inl ⟨hdelivered, hupdate c p (.inl ?_)⟩
      rw [hp, hpolling]
      rfl
    · cases h
  | lock c =>
    rw [Step, step] at h
    split at h
    · rename_i slots hwaiting _
      cases h
      refine .inl ⟨rfl, hupdate c _ (.inl ?_)⟩
      rw [hwaiting]
      rfl
    · cases h
  | readByte c =>
    rw [Step, step] at h
    split at h
    · rename_i slots hreading
      cases h
      rcases (k.readTurn_cases c slots).2 with ⟨hdelivered, hphase⟩ | ⟨n, b, rfl, hdelivered, hphase⟩
      · rw [hphase]
        exact .inl ⟨hdelivered, hupdate c _ (.inr rfl)⟩
      · exact .inr ⟨c, n, b, by rw [hreading]; rfl, hdelivered, hphase⟩
    · cases h

end Keyboard

/-! ## A full buffer -/

namespace Keyboard

/-- No context is in a call, and the UART is set up and empty. -/
structure Quiet (k : Keyboard) : Prop where
  lock : k.lock = none
  phase : k.phase 0 = .idle
  ready : k.uart.ready = true
  fifo : k.uart.fifo = []

/-- The keyboard in the loop of `poll`, with a byte in the UART. -/
def polled (k : Keyboard) (b : UInt8) : Keyboard :=
  { k with uart := { k.uart with fifo := [b] }, lock := some 0 }.setPhase 0 (.polling 0 none)

/-- A byte arrives, and the timer interrupt calls `poll`. -/
theorem Quiet.trace_polled {ts : List (Transition Keyboard Action)} {k : Keyboard}
    (hk : k.Quiet) (h : Trace boot Step ts k) (b : UInt8) :
    ∃ ts', Trace boot Step ts' (k.polled b) := by
  let k₁ : Keyboard := { k with uart := { k.uart with fifo := k.uart.fifo ++ [b] } }
  have h₁ : Step k (.arrive b) k₁ := rfl
  have h₂ : Step k₁ (.poll 0) (k.polled b) := by
    show (if k.phase 0 = .idle then some (k₁.startPoll 0 none) else none) = _
    rw [if_pos hk.phase, startPoll, if_pos hk.lock]
    simp [polled, k₁, hk.fifo]
  exact ⟨_, (h.cons h₁).cons h₂⟩

/-- While there is room, a byte that arrives ends up in the buffer. -/
theorem Quiet.trace_taken {ts : List (Transition Keyboard Action)} {k : Keyboard}
    (hk : k.Quiet) (h : Trace boot Step ts k) (b : UInt8) (hlt : k.buf.len < bufSize) :
    ∃ ts' k', Trace boot Step ts' k' ∧ k'.Quiet ∧ k'.buf.len = k.buf.len + 1 := by
  obtain ⟨ts₁, h₁⟩ := hk.trace_polled h b
  -- The first turn of the loop takes the byte, and the second finds the UART empty.
  let k₂ := (k.polled b).pollTurn 0 0 none
  have h₂ : Step (k.polled b) (.pollByte 0) k₂ := by
    simp [Step, step, polled, setPhase, k₂]
  have hk₂ : k₂ = { k.polled b with
      uart := { k.uart with fifo := [], taken := k.uart.taken ++ [b] }
      buf := k.buf.push (crToLf b) }.setPhase 0 (.polling 1 none) :=
    pollTurn_some 0 none hk.ready rfl hlt (by decide)
  let k₃ := k₂.pollTurn 0 1 none
  have h₃ : Step k₂ (.pollByte 0) k₃ := by
    simp [Step, step, hk₂, k₃, setPhase]
  have hk₃ : k₃ = k₂.endPoll 0 none := pollTurn_none 0 1 none (by rw [hk₂]; rfl)
  refine ⟨_, k₃, ((h₁.cons h₂).cons h₃), ?_, ?_⟩
  · rw [hk₃, hk₂]
    exact ⟨rfl, by simp [endPoll, setPhase, afterPoll], hk.ready, rfl⟩
  · rw [hk₃, hk₂]
    show (k.buf.push (crToLf b)).len = _
    rw [← Ring.length_toList, (pushByte_of_lt (crToLf b) hlt).2, List.length_append,
      Ring.length_toList]
    rfl

/-- The buffer can hold any number of bytes up to its size. -/
theorem exists_quiet (n : ℕ) (hn : n ≤ bufSize) :
    ∃ ts k, Trace boot Step ts k ∧ k.Quiet ∧ k.buf.len = n := by
  induction n with
  | zero =>
    exact ⟨_, _, .cons .nil (rfl : Step boot .init _), ⟨rfl, rfl, rfl, rfl⟩, rfl⟩
  | succ n ih =>
    obtain ⟨ts, k, h, hk, hlen⟩ := ih (by omega)
    obtain ⟨ts', k', h', hk', hlen'⟩ := hk.trace_taken h 97 (by omega)
    exact ⟨ts', k', h', hk', by rw [hlen', hlen]⟩

end Keyboard

/-- The 257th byte that arrives while nobody reads is lost. -/
theorem not_conserved : ¬ ∀ ts k, Trace boot Step ts k → ∀ k' ∈ reached boot ts, k'.Conserved := by
  intro hall
  obtain ⟨ts, k, h, hk, hlen⟩ := exists_quiet bufSize le_rfl
  obtain ⟨ts₁, h₁⟩ := hk.trace_polled h 98
  have h₂ : Step (k.polled 98) (.pollByte 0) ((k.polled 98).pollTurn 0 0 none) := by
    simp [Step, step, polled, setPhase]
  have hc := hall _ _ h₁ _ h₁.end_mem_reached
  have hc' := hall _ _ (h₁.cons h₂) _ (h₁.cons h₂).end_mem_reached
  have hfits := (conserved_pollTurn hc 0 0 none).mp hc' hk.ready (List.cons_ne_nil _ _)
  rw [show (k.polled 98).buf = k.buf from rfl, hlen] at hfits
  exact Nat.lt_irrefl _ hfits

end Ralix.Drivers
