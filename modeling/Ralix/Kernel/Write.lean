import Ralix.Drivers.Framebuffer
import Ralix.Kernel.Vfs
import Ralix.Lib.Trace

/-!
# Writing to the console

`write` of `src/kernel/vfs.rs` writes to the console under its lock, in `try_with_console`. It does not
wait for the lock. Where another call holds it, `try_with_console` returns `false`, as it does where
there is no console, and the bytes go to the UART. Here any number of callers, as the CPUs are, have
calls in flight, and each step is one of one caller (`Writers.step`).

`delivered_of_lockFree` says that in a run in which no call with bytes comes to a lock that is held,
each call's bytes come to the console in one piece. Calls are numbered, and what the console and the
UART get is recorded with the number of the call that it is from.
-/

namespace Ralix.Kernel

open Lib Drivers

/-! ## Calls and their steps -/

/-- A call of `write`, with its number. -/
structure WriteCall where
  id : ℕ
  desc : FileDesc
  buf : List UInt8

/-- The call is on a writable descriptor of `/dev/fb0`. -/
def WriteCall.ToFb0 (c : WriteCall) : Prop := c.desc.flags.write = true ∧ c.desc.handle = .devFb0

/-- Where a call is. -/
inductive WritePhase where
  /-- Before `try_lock`. -/
  | start
  /-- It holds the lock, and is to see whether there is a console. -/
  | locked
  /-- It holds the lock, and has bytes left to write. -/
  | console (rest : List UInt8)
  /-- It has bytes left for the UART. -/
  | uart (rest : List UInt8)

/-- Whether the call holds the lock. -/
def WritePhase.Holds : WritePhase → Prop
  | locked | console _ => True
  | start | uart _ => False

/-- The lock and the console behind it, the calls in flight, and what has happened so far: the calls that
have returned, with their results, and the bytes that the console and the UART have got. -/
structure Writers (ι : Type) where
  locked : Bool
  console : Option Console
  running : ι → Option (WriteCall × WritePhase)
  returned : List (WriteCall × ℕ)
  next : ℕ
  shown : List (ℕ × UInt8)
  uart : List (ℕ × UInt8)

/-- A step of a caller: it calls `write`, or its call goes on. -/
inductive WriteEvent (ι : Type) where
  | call (i : ι) (desc : FileDesc) (buf : List UInt8)
  | go (i : ι)

/-- What the UART gets for some bytes. -/
def uartBytes (buf : List UInt8) : List UInt8 :=
  buf.flatMap fun b => if b = 0x0a then [0x0d, b] else [b]

namespace Writers

variable {ι : Type} [DecidableEq ι]

/-- A console has been installed, and there are no calls. -/
def installed (console : Console) : Writers ι where
  locked := false
  console := some console
  running _ := none
  returned := []
  next := 0
  shown := []
  uart := []

/-- A caller's call comes to a phase. -/
def goTo (m : Writers ι) (i : ι) (c : WriteCall) (phase : WritePhase) : Writers ι :=
  { m with running := Function.update m.running i (some (c, phase)) }

/-- A caller's call returns. -/
def ret (m : Writers ι) (i : ι) (c : WriteCall) (result : ℕ) : Writers ι :=
  { m with
    running := Function.update m.running i none
    returned := (c, result) :: m.returned }

/-- A caller calls `write`. -/
def stepCall (m : Writers ι) (i : ι) (desc : FileDesc) (buf : List UInt8) : Writers ι :=
  let c : WriteCall := ⟨m.next, desc, buf⟩
  let m := { m with next := m.next + 1 }
  if ¬desc.flags.write then m.ret i c 0
  else
    match desc.handle with
    | .devFb0 => m.goTo i c .start
    | .devKbd0 => m.ret i c 0

/-- A caller's call goes on. -/
def stepGo (m : Writers ι) (i : ι) (c : WriteCall) : WritePhase → Option (Writers ι)
  | .start =>
    if m.locked then some (m.goTo i c (.uart (uartBytes c.buf)))
    else some ({ m with locked := true }.goTo i c .locked)
  | .locked =>
    match m.console with
    | some _ => some (m.goTo i c (.console c.buf))
    | none => some ({ m with locked := false }.goTo i c (.uart (uartBytes c.buf)))
  | .console (b :: rest) =>
    m.console.map fun console =>
      { m with
        console := some (console.writeByte b).2
        shown := m.shown ++ [(c.id, b)] }.goTo i c (.console rest)
  | .console [] => some ({ m with locked := false }.ret i c c.buf.length)
  | .uart (b :: rest) => some ({ m with uart := m.uart ++ [(c.id, b)] }.goTo i c (.uart rest))
  | .uart [] => some (m.ret i c c.buf.length)

/-- One step. A caller has one call at a time. -/
def step (m : Writers ι) : WriteEvent ι → Option (Writers ι)
  | .call i desc buf => if (m.running i).isSome then none else some (m.stepCall i desc buf)
  | .go i => (m.running i).bind fun (c, phase) => m.stepGo i c phase

/-- A step that an event takes. -/
def Step (m : Writers ι) (e : WriteEvent ι) (m' : Writers ι) : Prop := m.step e = some m'

/-- No call with bytes comes to `try_lock` while another one holds the lock. -/
def LockFree (m : Writers ι) : WriteEvent ι → Prop
  | .call _ _ _ => True
  | .go i => ∀ c, m.running i = some (c, .start) → c.buf ≠ [] → m.locked = false

end Writers

/-! ## Delivery -/

/-- A log has some bytes of a call in one piece, and no others of it. -/
def Appears (log : List (ℕ × UInt8)) (id : ℕ) (bytes : List UInt8) : Prop :=
  ∃ pre post, log = pre ++ bytes.map (fun b => (id, b)) ++ post ∧ id ∉ (pre ++ post).map Prod.fst

/-- What is promised of the calls: a call that has returned has written its bytes to the console in one
piece, a call in flight has written the first of them, and the UART has got none. The console is as it
is after the bytes that it has got. -/
structure Delivered {ι : Type} (first : Console) (m : Writers ι) : Prop where
  console : m.console = some (first.writeBytes (m.shown.map Prod.snd)).2
  returned : ∀ c n, (c, n) ∈ m.returned → c.ToFb0 → n = c.buf.length ∧ Appears m.shown c.id c.buf
  running : ∀ i c phase, m.running i = some (c, phase) →
    ∃ bytes, bytes <+: c.buf ∧ Appears m.shown c.id bytes
  uart : m.uart = []

/-- A log without a call's bytes. -/
theorem appears_nil {log : List (ℕ × UInt8)} {id : ℕ} (h : id ∉ log.map Prod.fst) :
    Appears log id [] := ⟨log, [], by simp, by simpa using h⟩

/-- Bytes of other calls do not matter. -/
theorem Appears.append {log log' : List (ℕ × UInt8)} {id : ℕ} {bytes : List UInt8}
    (h : Appears log id bytes) (hnew : id ∉ log'.map Prod.fst) : Appears (log ++ log') id bytes := by
  obtain ⟨pre, post, rfl, hid⟩ := h
  refine ⟨pre, post ++ log', by simp only [List.append_assoc], ?_⟩
  rw [List.map_append, List.mem_append] at hid
  rw [List.map_append, List.map_append, List.mem_append, List.mem_append]
  exact fun h => h.elim (fun h => hid (.inl h)) fun h => h.elim (fun h => hid (.inr h)) hnew

/-- What a call in flight has written. The call that holds the lock has written the last bytes of the
log, and a call for the UART has no bytes. -/
def WriteCall.Written (c : WriteCall) (log : List (ℕ × UInt8)) : WritePhase → Prop
  | .start | .locked => c.id ∉ log.map Prod.fst
  | .console rest => ∃ pre bytes, log = pre ++ bytes.map (fun b => (c.id, b)) ∧
      c.buf = bytes ++ rest ∧ c.id ∉ pre.map Prod.fst
  | .uart rest => rest = [] ∧ c.buf = [] ∧ c.id ∉ log.map Prod.fst

/-- Then its first bytes appear in the log. -/
theorem WriteCall.Written.appears {c : WriteCall} {log : List (ℕ × UInt8)} {phase : WritePhase}
    (h : c.Written log phase) : ∃ bytes, bytes <+: c.buf ∧ Appears log c.id bytes := by
  cases phase with
  | start => exact ⟨[], List.nil_prefix, appears_nil h⟩
  | locked => exact ⟨[], List.nil_prefix, appears_nil h⟩
  | uart rest => exact ⟨[], List.nil_prefix, appears_nil h.2.2⟩
  | console rest =>
    obtain ⟨pre, bytes, rfl, hbuf, hid⟩ := h
    refine ⟨bytes, ⟨rest, hbuf.symm⟩, pre, [], (List.append_nil _).symm, ?_⟩
    rwa [List.append_nil]

/-- A call that does not hold the lock is not affected by the bytes of others. -/
theorem WriteCall.Written.append {c : WriteCall} {log log' : List (ℕ × UInt8)} {phase : WritePhase}
    (h : c.Written log phase) (hphase : ¬phase.Holds) (hnew : c.id ∉ log'.map Prod.fst) :
    c.Written (log ++ log') phase := by
  have happend : c.id ∉ log.map Prod.fst → c.id ∉ (log ++ log').map Prod.fst := by
    rw [List.map_append, List.mem_append]
    exact fun hlog h => h.elim hlog hnew
  cases phase with
  | start => exact happend h
  | locked => exact absurd trivial hphase
  | console rest => exact absurd trivial hphase
  | uart rest => exact ⟨h.1, h.2.1, happend h.2.2⟩

/-! ## The invariant -/

namespace Writers

variable {ι : Type} {first : Console} {m : Writers ι}

/-- What holds of a call in flight. -/
structure Flight (m : Writers ι) (c : WriteCall) (phase : WritePhase) : Prop where
  id_lt : c.id < m.next
  written : c.Written m.shown phase
  locked : phase.Holds → m.locked = true

/-- What holds of a call that has returned. -/
structure Landed (m : Writers ι) (c : WriteCall) (n : ℕ) : Prop where
  id_lt : c.id < m.next
  appears : c.ToFb0 → n = c.buf.length ∧ Appears m.shown c.id c.buf

/-- The numbers of calls differ, one call holds the lock at most, and each call has written what it
should have. -/
structure Inv (first : Console) (m : Writers ι) : Prop where
  console : m.console = some (first.writeBytes (m.shown.map Prod.snd)).2
  uart : m.uart = []
  shown_lt : ∀ x ∈ m.shown, x.1 < m.next
  flight : ∀ i c phase, m.running i = some (c, phase) → m.Flight c phase
  landed : ∀ c n, (c, n) ∈ m.returned → m.Landed c n
  apart : ∀ i j c d p q, m.running i = some (c, p) → m.running j = some (d, q) → i ≠ j →
    c.id ≠ d.id ∧ ¬(p.Holds ∧ q.Holds)
  gone : ∀ i c p d n, m.running i = some (c, p) → (d, n) ∈ m.returned → d.id ≠ c.id

/-- The invariant gives the promise. -/
theorem Inv.delivered (h : m.Inv first) : Delivered first m where
  console := h.console
  returned c n hc hfb := (h.landed c n hc).appears hfb
  running i c phase hc := (h.flight i c phase hc).written.appears
  uart := h.uart

/-- It holds at the start. -/
theorem inv_installed (first : Console) : (installed first : Writers ι).Inv first where
  console := rfl
  uart := rfl
  shown_lt := List.forall_mem_nil _
  flight _ _ _ h := nomatch h
  landed _ _ h := nomatch h
  apart _ _ _ _ _ _ h := nomatch h
  gone _ _ _ _ _ h := nomatch h

/-- The console after more bytes. -/
theorem writeBytes_append (c : Console) (bytes bytes' : List UInt8) :
    (c.writeBytes (bytes ++ bytes')).2 = ((c.writeBytes bytes).2.writeBytes bytes').2 := by
  induction bytes generalizing c with
  | nil => rfl
  | cons b bytes ih => exact ih (c.writeByte b).2

/-- The console after one more byte. -/
theorem writeBytes_concat (c : Console) (bytes : List UInt8) (b : UInt8) :
    (c.writeBytes (bytes ++ [b])).2 = ((c.writeBytes bytes).2.writeByte b).2 :=
  writeBytes_append c bytes [b]

variable [DecidableEq ι]

/-- The state after a call has come to a phase, with the lock, the console and some bytes of its own. -/
def moved (m : Writers ι) (i : ι) (c : WriteCall) (phase : WritePhase) (locked : Bool)
    (console : Option Console) (bytes : List UInt8) : Writers ι :=
  { m with locked, console, shown := m.shown ++ bytes.map fun b => (c.id, b) }.goTo i c phase

/-- The invariant is kept by a call that comes to a phase. It may take the lock if it is free, and write
if it holds the lock. -/
theorem Inv.moved (h : m.Inv first) {i : ι} {c : WriteCall} {p phase : WritePhase}
    {locked : Bool} {console : Option Console} {bytes : List UInt8}
    (hrun : m.running i = some (c, p))
    (hconsole : console = some (first.writeBytes ((m.shown ++ bytes.map fun b => (c.id, b)).map
      Prod.snd)).2)
    (hwritten : c.Written (m.shown ++ bytes.map fun b => (c.id, b)) phase)
    (hlocked : phase.Holds → locked = true)
    (hothers : m.locked = true → ¬p.Holds → ¬phase.Holds ∧ locked = true ∧ bytes = []) :
    (m.moved i c phase locked console bytes).Inv first := by
  have hflight := h.flight i c p hrun
  -- A call that holds the lock is the only one, so this call has not written.
  have hholder : ∀ j d q, j ≠ i → m.running j = some (d, q) → q.Holds →
      ¬phase.Holds ∧ locked = true ∧ bytes = [] := by
    intro j d q hj hd hq
    refine hothers ((h.flight j d q hd).locked hq) fun hp => ?_
    exact (h.apart j i d c q p hd hrun hj).2 ⟨hq, hp⟩
  have hbytes : ∀ id, id ≠ c.id → id ∉ (bytes.map fun b => (c.id, b)).map Prod.fst := by
    intro id hid hmem
    obtain ⟨x, hx, rfl⟩ := List.mem_map.mp hmem
    obtain ⟨b, -, rfl⟩ := List.mem_map.mp hx
    exact hid rfl
  have hrunning : ∀ j d q, (m.moved i c phase locked console bytes).running j = some (d, q) →
      j = i ∧ d = c ∧ q = phase ∨ j ≠ i ∧ m.running j = some (d, q) := by
    intro j d q hd
    by_cases hj : j = i
    · subst hj
      have hself : Function.update m.running j (some (c, phase)) j = some (d, q) := hd
      rw [Function.update_self] at hself
      cases hself
      exact .inl ⟨rfl, rfl, rfl⟩
    · exact .inr ⟨hj, by rwa [← Function.update_of_ne hj (some (c, phase)) m.running]⟩
  refine ⟨hconsole, h.uart, ?_, ?_, ?_, ?_, ?_⟩
  · refine List.forall_mem_append.mpr ⟨h.shown_lt, fun x hx => ?_⟩
    obtain ⟨b, -, rfl⟩ := List.mem_map.mp hx
    exact hflight.id_lt
  · intro j d q hd
    rcases hrunning j d q hd with ⟨rfl, rfl, rfl⟩ | ⟨hj, hd⟩
    · exact ⟨hflight.id_lt, hwritten, hlocked⟩
    · have hother := h.flight j d q hd
      refine ⟨hother.id_lt, ?_, fun hq => (hholder j d q hj hd hq).2.1⟩
      by_cases hq : q.Holds
      · obtain ⟨-, -, rfl⟩ := hholder j d q hj hd hq
        show d.Written (m.shown ++ []) q
        rw [List.append_nil]
        exact hother.written
      · exact hother.written.append hq (hbytes _ (h.apart j i d c q p hd hrun hj).1)
  · intro d n hd
    obtain ⟨hlt, happears⟩ := h.landed d n hd
    refine ⟨hlt, fun hfb => ⟨(happears hfb).1, ?_⟩⟩
    exact (happears hfb).2.append (hbytes _ (h.gone i c p d n hrun hd))
  · intro j k d e q r hd he hjk
    rcases hrunning j d q hd with ⟨rfl, rfl, rfl⟩ | ⟨hj, hd'⟩
    · rcases hrunning k e r he with ⟨rfl, -, -⟩ | ⟨hk, he'⟩
      · exact absurd rfl hjk
      · refine ⟨(h.apart j k d e p r hrun he' hjk).1, fun hboth => ?_⟩
        exact (hholder k e r hk he' hboth.2).1 hboth.1
    · rcases hrunning k e r he with ⟨rfl, rfl, rfl⟩ | ⟨hk, he'⟩
      · refine ⟨(h.apart j k d e q p hd' hrun hjk).1, fun hboth => ?_⟩
        exact (hholder j d q hj hd' hboth.1).1 hboth.2
      · exact h.apart j k d e q r hd' he' hjk
  · intro j d q e n hd he
    rcases hrunning j d q hd with ⟨rfl, rfl, rfl⟩ | ⟨-, hd⟩
    · exact h.gone j d p e n hrun he
    · exact h.gone j d q e n hd he

/-- The invariant is kept by a call that comes to a phase without writing. -/
theorem Inv.goTo (h : m.Inv first) {i : ι} {c : WriteCall} {p phase : WritePhase} {locked : Bool}
    (hrun : m.running i = some (c, p)) (hwritten : c.Written m.shown phase)
    (hlocked : phase.Holds → locked = true)
    (hothers : m.locked = true → ¬p.Holds → ¬phase.Holds ∧ locked = true) :
    ({ m with locked }.goTo i c phase).Inv first := by
  have hshown : m.shown ++ ([] : List UInt8).map (fun b => (c.id, b)) = m.shown := List.append_nil _
  have hmoved : (m.moved i c phase locked m.console []).Inv first :=
    h.moved hrun (by rw [hshown]; exact h.console) (by rw [hshown]; exact hwritten) hlocked
      fun hheld hp => ⟨(hothers hheld hp).1, (hothers hheld hp).2, rfl⟩
  have heq : m.moved i c phase locked m.console [] = { m with locked }.goTo i c phase := by
    rw [Writers.moved, hshown]
  rwa [heq] at hmoved

/-- The invariant is kept by a call that returns. It may drop the lock if it holds it. -/
theorem Inv.ret (h : m.Inv first) {i : ι} {c : WriteCall} {p : WritePhase} {locked : Bool} {n : ℕ}
    (hrun : m.running i = some (c, p))
    (hdone : c.ToFb0 → n = c.buf.length ∧ Appears m.shown c.id c.buf)
    (hlocked : m.locked = true → ¬p.Holds → locked = true) :
    ({ m with locked }.ret i c n).Inv first := by
  -- The other writers go on as before; only the landed calls grow.
  have hrunning : ∀ j d q, ({ m with locked }.ret i c n).running j = some (d, q) →
      j ≠ i ∧ m.running j = some (d, q) := by
    intro j d q hd
    by_cases hj : j = i
    · subst hj
      have hself : Function.update m.running j none j = some (d, q) := hd
      rw [Function.update_self] at hself
      cases hself
    · exact ⟨hj, by rwa [← Function.update_of_ne hj none m.running]⟩
  refine ⟨h.console, h.uart, h.shown_lt, ?_, ?_, ?_, ?_⟩
  · intro j d q hd
    obtain ⟨hj, hd⟩ := hrunning j d q hd
    obtain ⟨hlt, hwritten, hheld⟩ := h.flight j d q hd
    refine ⟨hlt, hwritten, fun hq => hlocked (hheld hq) fun hp => ?_⟩
    exact (h.apart j i d c q p hd hrun hj).2 ⟨hq, hp⟩
  · intro d k hd
    rcases List.mem_cons.mp hd with hself | hd
    · cases hself
      exact ⟨(h.flight i c p hrun).id_lt, hdone⟩
    · obtain ⟨hlt, happears⟩ := h.landed d k hd
      exact ⟨hlt, happears⟩
  · intro j k d e q r hd he hjk
    exact h.apart j k d e q r (hrunning j d q hd).2 (hrunning k e r he).2 hjk
  · intro j d q e k hd he
    obtain ⟨hj, hd⟩ := hrunning j d q hd
    rcases List.mem_cons.mp he with hself | he
    · cases hself
      exact ((h.apart j i d c q p hd hrun hj).1).symm
    · exact h.gone j d q e k hd he

omit [DecidableEq ι] in
/-- The invariant is kept by a number that is passed over. -/
theorem Inv.skip (h : m.Inv first) : { m with next := m.next + 1 }.Inv first where
  console := h.console
  uart := h.uart
  shown_lt x hx := Nat.lt_succ_of_lt (h.shown_lt x hx)
  flight i c p hc :=
    have hflight := h.flight i c p hc
    ⟨Nat.lt_succ_of_lt hflight.id_lt, hflight.written, hflight.locked⟩
  landed c n hc :=
    have hlanded := h.landed c n hc
    ⟨Nat.lt_succ_of_lt hlanded.id_lt, hlanded.appears⟩
  apart := h.apart
  gone := h.gone

/-- It is kept by a new call. -/
theorem Inv.call (h : m.Inv first) (i : ι) (desc : FileDesc) (buf : List UInt8) :
    ({ m with next := m.next + 1 }.goTo i ⟨m.next, desc, buf⟩ .start).Inv first := by
  have hskip := h.skip
  -- The new call's number is above all numbers given so far, so nothing of it is shown yet.
  have hfresh : m.next ∉ m.shown.map Prod.fst := by
    intro hmem
    obtain ⟨x, hx, he⟩ := List.mem_map.mp hmem
    exact absurd (h.shown_lt x hx) (by omega)
  have hrunning : ∀ j d q,
      Function.update m.running i (some (⟨m.next, desc, buf⟩, .start)) j = some (d, q) →
        j = i ∧ d = ⟨m.next, desc, buf⟩ ∧ q = .start ∨ j ≠ i ∧ m.running j = some (d, q) := by
    intro j d q hd
    by_cases hj : j = i
    · subst hj
      rw [Function.update_self] at hd
      cases hd
      exact .inl ⟨rfl, rfl, rfl⟩
    · rw [Function.update_of_ne hj] at hd
      exact .inr ⟨hj, hd⟩
  refine ⟨hskip.console, hskip.uart, hskip.shown_lt, ?_, ?_, ?_, ?_⟩
  · intro j d q hd
    rcases hrunning j d q hd with ⟨rfl, rfl, rfl⟩ | ⟨hj, hd'⟩
    · exact ⟨Nat.lt_succ_self _, hfresh, False.elim⟩
    · obtain ⟨hlt, hwritten, hlocked⟩ := hskip.flight j d q hd'
      exact ⟨hlt, hwritten, hlocked⟩
  · intro d n hd
    obtain ⟨hlt, happears⟩ := hskip.landed d n hd
    exact ⟨hlt, happears⟩
  · intro j k d e q r hd he hjk
    rcases hrunning j d q hd with ⟨rfl, rfl, rfl⟩ | ⟨hj, hd'⟩
    · rcases hrunning k e r he with ⟨rfl, -, -⟩ | ⟨hk, he'⟩
      · exact absurd rfl hjk
      · have hlt := (h.flight k e r he').id_lt
        exact ⟨(Nat.ne_of_lt hlt).symm, fun hboth => hboth.1⟩
    · rcases hrunning k e r he with ⟨rfl, rfl, rfl⟩ | ⟨hk, he'⟩
      · have hlt := (h.flight j d q hd').id_lt
        exact ⟨Nat.ne_of_lt hlt, fun hboth => hboth.2⟩
      · exact h.apart j k d e q r hd' he' hjk
  · intro j d q e n hd he
    rcases hrunning j d q hd with ⟨rfl, rfl, rfl⟩ | ⟨hj, hd'⟩
    · exact Nat.ne_of_lt (h.landed e n he).id_lt
    · exact h.gone j d q e n hd' he

/-- It is kept by a call on another descriptor, which returns at once. -/
theorem Inv.reject (h : m.Inv first) (i : ι) {desc : FileDesc} {buf : List UInt8}
    (hdesc : ¬(WriteCall.mk m.next desc buf).ToFb0) :
    ({ m with next := m.next + 1 }.ret i ⟨m.next, desc, buf⟩ 0).Inv first := by
  have hself : Function.update m.running i (some (⟨m.next, desc, buf⟩, .start)) i =
    some (⟨m.next, desc, buf⟩, .start) := Function.update_self _ _ _
  have hret := (h.call i desc buf).ret (n := 0) hself (fun hfb => absurd hfb hdesc)
    fun hlocked _ => hlocked
  have heq : { m with next := m.next + 1 }.ret i ⟨m.next, desc, buf⟩ 0 =
      (({ m with next := m.next + 1 }.goTo i ⟨m.next, desc, buf⟩ .start).ret i
        ⟨m.next, desc, buf⟩ 0) := by
    unfold Writers.ret Writers.goTo
    dsimp only
    rw [Function.update_idem]
  rwa [heq]

/-! ## Steps and runs -/

/-- The invariant is kept by a call. -/
theorem inv_stepCall (h : m.Inv first) (i : ι) (desc : FileDesc) (buf : List UInt8) :
    (m.stepCall i desc buf).Inv first := by
  unfold stepCall
  dsimp only
  split
  · rename_i hwrite
    exact h.reject i fun hfb => hwrite hfb.1
  · split
    · exact h.call i desc buf
    · rename_i hkbd
      refine h.reject i fun hfb => ?_
      have hfb0 : desc.handle = .devFb0 := hfb.2
      rw [hkbd] at hfb0
      cases hfb0

/-- The invariant is kept by a call that goes on, if it does not come to a lock that is held. -/
theorem inv_stepGo (h : m.Inv first) {i : ι} {c : WriteCall} {p : WritePhase} {m' : Writers ι}
    (hrun : m.running i = some (c, p)) (hfree : m.LockFree (.go i))
    (hstep : m.stepGo i c p = some m') : m'.Inv first := by
  have hflight := h.flight i c p hrun
  cases p with
  | start =>
    rw [stepGo] at hstep
    split at hstep
    · -- The lock is held, so there is nothing to write.
      rename_i hlocked
      cases hstep
      have hempty : c.buf = [] := by
        by_contra hne
        rw [hfree c hrun hne] at hlocked
        cases hlocked
      have hwritten : c.Written m.shown (.uart (uartBytes c.buf)) :=
        ⟨by rw [hempty]; rfl, hempty, hflight.written⟩
      exact h.goTo hrun hwritten False.elim fun hheld _ => ⟨id, hheld⟩
    · rename_i hlocked
      cases hstep
      exact h.goTo hrun hflight.written (fun _ => rfl) fun hheld _ => absurd hheld hlocked
  | locked =>
    have hheld := hflight.locked trivial
    rw [stepGo, h.console] at hstep
    cases hstep
    have hwritten : c.Written m.shown (.console c.buf) :=
      ⟨m.shown, [], (List.append_nil _).symm, rfl, hflight.written⟩
    exact h.goTo hrun hwritten (fun _ => hheld) fun _ hp => absurd trivial hp
  | console rest =>
    have hheld := hflight.locked trivial
    obtain ⟨pre, bytes, hshown, hbuf, hid⟩ := hflight.written
    cases rest with
    | nil =>
      cases hstep
      refine h.ret hrun (fun _ => ⟨rfl, pre, [], ?_, ?_⟩) fun _ hp => absurd trivial hp
      · rw [hshown, hbuf, List.append_nil, List.append_nil]
      · rwa [List.append_nil]
    | cons b rest =>
      rw [stepGo, h.console] at hstep
      cases hstep
      have hwritten : c.Written (m.shown ++ [b].map fun b => (c.id, b)) (.console rest) := by
        refine ⟨pre, bytes ++ [b], ?_, ?_, hid⟩
        · rw [hshown, List.map_append, List.append_assoc]
        · rw [hbuf, List.append_assoc, List.singleton_append]
      have hconsole : some ((first.writeBytes (m.shown.map Prod.snd)).2.writeByte b).2 =
          some (first.writeBytes ((m.shown ++ [b].map fun b => (c.id, b)).map Prod.snd)).2 := by
        rw [← writeBytes_concat, List.map_append]
        rfl
      exact h.moved hrun hconsole hwritten (fun _ => hheld) fun _ hp => absurd trivial hp
  | uart rest =>
    obtain ⟨rfl, hempty, hid⟩ := hflight.written
    cases hstep
    refine h.ret hrun (fun _ => ⟨rfl, ?_⟩) fun hheld _ => hheld
    rw [hempty]
    exact appears_nil hid

/-- The invariant is kept by a step, if no call with bytes comes to a lock that is held. -/
theorem inv_step (h : m.Inv first) {e : WriteEvent ι} {m' : Writers ι} (hfree : m.LockFree e)
    (hstep : m.Step e m') : m'.Inv first := by
  cases e with
  | call i desc buf =>
    change (if (m.running i).isSome then none else some (m.stepCall i desc buf)) = some m' at hstep
    split at hstep
    · cases hstep
    · cases hstep
      exact inv_stepCall h i desc buf
  | go i =>
    obtain ⟨⟨c, p⟩, hrun, hgo⟩ := Option.bind_eq_some_iff.mp hstep
    exact inv_stepGo h hrun hfree hgo

end Writers

/-- In every run after a console has been installed in which no call with bytes comes to `try_lock`
while another one holds the lock, every state has delivered: the bytes of each call are on the console
once, in order and in one piece, and none are on the UART. -/
theorem delivered_of_lockFree {ι : Type} [DecidableEq ι] {first : Console} {m : Writers ι}
    {ts : List (Transition (Writers ι) (WriteEvent ι))}
    (h : Trace (Writers.installed first) Writers.Step ts m)
    (hfree : ∀ t ∈ ts, t.pre.LockFree t.act) :
    ∀ m' ∈ reached (Writers.installed first) ts, Delivered first m' := by
  have hinv := h.always (P := Writers.Inv first) (Writers.inv_installed first)
    (fun m e m' hm hok hstep => Writers.inv_step hm hok hstep) hfree
  exact fun m' hm' => (hinv m' hm').delivered

/-- A writable descriptor of `/dev/fb0`. -/
def fb0 : FileDesc := ⟨.devFb0, ⟨false, true, false⟩⟩

/-- A console on a small frame buffer. -/
def smallConsole : Console := .new ⟨0x1000, 64, 32, 256⟩ 0xffffff 0

/-- A first call, which writes a letter. -/
def firstCall : WriteCall := ⟨0, fb0, [0x61]⟩

/-- CPU 0 has called `write`, and its call holds the lock. -/
def busy : Writers Cpu :=
  { (Writers.installed smallConsole).stepCall 0 fb0 [0x61] with locked := true }.goTo 0 firstCall .locked

/-- A run comes there. -/
theorem trace_busy : ∃ ts, Trace (Writers.installed smallConsole) Writers.Step ts busy ∧
    ∀ t ∈ ts, t.pre.LockFree t.act := by
  let m₁ := (Writers.installed smallConsole : Writers Cpu).stepCall 0 fb0 [0x61]
  have h₁ : (Writers.installed smallConsole : Writers Cpu).Step (.call 0 fb0 [0x61]) m₁ := rfl
  have h₂ : m₁.Step (.go 0) busy := rfl
  refine ⟨_, (Trace.nil.cons h₁).cons h₂, ?_⟩
  simp only [List.forall_mem_cons]
  exact ⟨fun c hc hne => rfl, trivial, List.forall_mem_nil _⟩

/-- The call goes on, and its letter is delivered. -/
theorem delivered_of_lockFree_busy : ∃ m : Writers Cpu, m.returned = [(firstCall, 1)] ∧
    Delivered smallConsole m := by
  obtain ⟨ts, hbusy, hfree⟩ := trace_busy
  let m₃ := busy.goTo 0 firstCall (.console [0x61])
  have h₃ : busy.Step (.go 0) m₃ := rfl
  let m₄ := { m₃ with
    console := some (smallConsole.writeByte 0x61).2
    shown := [(0, 0x61)] }.goTo 0 firstCall (.console [])
  have h₄ : m₃.Step (.go 0) m₄ := rfl
  let m₅ := { m₄ with locked := false }.ret 0 firstCall 1
  have h₅ : m₄.Step (.go 0) m₅ := rfl
  have htrace := ((hbusy.cons h₃).cons h₄).cons h₅
  refine ⟨m₅, rfl, delivered_of_lockFree htrace ?_ m₅ htrace.end_mem_reached⟩
  simp only [List.forall_mem_cons]
  refine ⟨?_, ?_, ?_, hfree⟩
  · exact fun c hc => nomatch (show some (_, WritePhase.console []) = some (c, .start) from hc)
  · exact fun c hc => nomatch (show some (_, WritePhase.console [0x61]) = some (c, .start) from hc)
  · exact fun c hc => nomatch (show some (_, WritePhase.locked) = some (c, .start) from hc)

/-- CPU 1 writes a letter at the same time, and that goes to the UART. -/
theorem not_delivered : ¬∀ (first : Console) (m : Writers Cpu)
    (ts : List (Transition (Writers Cpu) (WriteEvent Cpu))),
    Trace (Writers.installed first) Writers.Step ts m →
      ∀ m' ∈ reached (Writers.installed first) ts, Delivered first m' := by
  intro hall
  obtain ⟨ts, hbusy, -⟩ := trace_busy
  let m₃ := busy.stepCall 1 fb0 [0x62]
  have h₃ : busy.Step (.call 1 fb0 [0x62]) m₃ := rfl
  let m₄ := m₃.goTo 1 ⟨1, fb0, [0x62]⟩ (.uart [0x62])
  have h₄ : m₃.Step (.go 1) m₄ := rfl
  let m₅ := { m₄ with uart := [(1, 0x62)] }.goTo 1 ⟨1, fb0, [0x62]⟩ (.uart [])
  have h₅ : m₄.Step (.go 1) m₅ := rfl
  have htrace := ((hbusy.cons h₃).cons h₄).cons h₅
  exact List.cons_ne_nil _ _ (hall _ _ _ htrace m₅ htrace.end_mem_reached).uart

/-! ## One caller -/

/-- The bytes of the call that a step makes. -/
def WriteEvent.bufs {ι : Type} : WriteEvent ι → List (List UInt8)
  | call _ _ buf => [buf]
  | go _ => []

namespace Writers

variable {ι : Type} {m : Writers ι} {i : ι} {console : Console}

/-- The lock is free, and a caller has no call in flight. -/
structure Free (m : Writers ι) (i : ι) (console : Console) : Prop where
  locked : m.locked = false
  running : m.running i = none
  console : m.console = some console

variable [DecidableEq ι]

/-- A call in flight goes on. -/
theorem step_go {c : WriteCall} {phase : WritePhase} {m' : Writers ι}
    (hrun : m.running i = some (c, phase)) (h : m.stepGo i c phase = some m') : m.Step (.go i) m' := by
  rw [Step, step, hrun]
  exact h

/-- A call that holds the lock writes what it has left, and returns. -/
theorem trace_rest {c : WriteCall} {rest : List UInt8}
    (hrun : m.running i = some (c, .console rest)) (hconsole : m.console = some console) :
    ∃ us m', Trace m Step us m' ∧ yielded (fun x => x.act.bufs) us = [] ∧
      m'.Free i (console.writeBytes rest).2 := by
  induction rest generalizing m console with
  | nil =>
    have h : m.Step (.go i) ({ m with locked := false }.ret i c c.buf.length) := step_go hrun rfl
    exact ⟨_, _, .cons .nil h, rfl, rfl, Function.update_self .., hconsole⟩
  | cons b rest ih =>
    let m₁ := { m with
      console := some (console.writeByte b).2
      shown := m.shown ++ [(c.id, b)] }.goTo i c (.console rest)
    have h₁ : m.Step (.go i) m₁ := by
      refine step_go hrun ?_
      rw [stepGo, hconsole]
      rfl
    obtain ⟨us, m', htrace, hbufs, hfree⟩ := ih (m := m₁) (Function.update_self ..) rfl
    refine ⟨_, _, (Trace.nil.cons h₁).append htrace, ?_, hfree⟩
    rw [yielded_append, hbufs]
    rfl

/-- While no other call is in flight, a call of `write` to a console writes its bytes. -/
theorem trace_write (h : m.Free i console) (buf : List UInt8) :
    ∃ us m', Trace m Step us m' ∧ yielded (fun x => x.act.bufs) us = [buf] ∧
      m'.Free i (console.writeBytes buf).2 := by
  let c : WriteCall := ⟨m.next, fb0, buf⟩
  let m₁ := { m with next := m.next + 1 }.goTo i c .start
  have h₁ : m.Step (.call i fb0 buf) m₁ := by
    rw [Step, step, h.running]
    rfl
  let m₂ := { m₁ with locked := true }.goTo i c .locked
  have h₂ : m₁.Step (.go i) m₂ := by
    refine step_go (Function.update_self ..) ?_
    rw [stepGo, show m₁.locked = false from h.locked]
    rfl
  let m₃ := m₂.goTo i c (.console buf)
  have h₃ : m₂.Step (.go i) m₃ := by
    refine step_go (Function.update_self ..) ?_
    rw [stepGo, show m₂.console = some console from h.console]
  obtain ⟨us, m', htrace, hbufs, hfree⟩ := trace_rest (m := m₃) (Function.update_self ..) h.console
  refine ⟨_, _, (((Trace.nil.cons h₁).cons h₂).cons h₃).append htrace, ?_, hfree⟩
  rw [yielded_append, hbufs]
  rfl

/-- So do calls one after another. -/
theorem trace_writes (h : m.Free i console) (bufs : List (List UInt8)) :
    ∃ us m', Trace m Step us m' ∧ yielded (fun x => x.act.bufs) us = bufs ∧
      m'.Free i (console.writeBytes bufs.flatten).2 := by
  induction bufs generalizing m console with
  | nil => exact ⟨[], m, .nil, rfl, h⟩
  | cons buf bufs ih =>
    obtain ⟨us₁, m₁, htrace₁, hbufs₁, hfree₁⟩ := trace_write h buf
    obtain ⟨us, m', htrace, hbufs, hfree⟩ := ih hfree₁
    rw [← writeBytes_append] at hfree
    refine ⟨_, m', htrace₁.append htrace, ?_, hfree⟩
    rw [yielded_append, hbufs₁, hbufs]
    rfl

end Writers

end Ralix.Kernel
