import Ralix.Drivers.Keyboard
import Ralix.User.Shell

/-!
# Lines that are typed

The shell at the keyboard. It reads one byte at a time, while any other context may poll the UART, so a
stream of bytes may be split in any way across the polls and the reads (`Session`). In a run without
overflow the shell gets the bytes that were received, each as `poll` makes it (`Receives.shell_eq`).

`poll` makes line feeds of carriage returns, and the shell ends a line at each. So a carriage return
and a line feed that follow each other end two lines, and `oneLineEach_iff` says that a stream has its
lines exactly if it has no such pair.
-/

namespace Ralix.User

open Lib Drivers

/-! ## Ends of lines -/

/-- A carriage return and a line feed. -/
def crLf : List UInt8 := [0x0d, 0x0a]

/-- A stream with a line feed in place of each such pair. -/
def collapse : List UInt8 → List UInt8
  | [] => []
  | [b] => [b]
  | b :: b' :: bytes =>
    if b = 0x0d ∧ b' = 0x0a then 0x0a :: collapse bytes else b :: collapse (b' :: bytes)

/-- The ends of lines in a stream. A carriage return, a line feed and a pair of both are one each. -/
def lineEnds (bytes : List UInt8) : ℕ := (collapse bytes).countP endsLine

/-- A pair stands at the start of a stream, or further on. -/
theorem crLf_infix_cons {b b' : UInt8} {bytes : List UInt8} :
    crLf <:+: b :: b' :: bytes ↔ (b = 0x0d ∧ b' = 0x0a) ∨ crLf <:+: b' :: bytes := by
  simp [crLf, List.infix_cons_iff (a := b), eq_comm]

/-- A stream without a pair is left as it is. -/
theorem collapse_eq {bytes : List UInt8} (h : ¬crLf <:+: bytes) : collapse bytes = bytes := by
  induction bytes using collapse.induct with
  | case1 => rfl
  | case2 b => rfl
  | case3 b b' bytes hpair ih => exact absurd (crLf_infix_cons.mpr (.inl hpair)) h
  | case4 b b' bytes hpair ih =>
    rw [collapse, if_neg hpair, ih fun hin => h (crLf_infix_cons.mpr (.inr hin))]

/-- There are no more ends of lines than bytes that end one. -/
theorem lineEnds_le (bytes : List UInt8) : lineEnds bytes ≤ bytes.countP endsLine := by
  unfold lineEnds
  induction bytes using collapse.induct with
  | case1 => exact le_rfl
  | case2 b => exact le_rfl
  | case3 b b' bytes hpair ih =>
    obtain ⟨rfl, rfl⟩ := hpair
    rw [collapse, if_pos ⟨rfl, rfl⟩, List.countP_cons, List.countP_cons, List.countP_cons]
    omega
  | case4 b b' bytes hpair ih =>
    rw [collapse, if_neg hpair, List.countP_cons, List.countP_cons (l := b' :: bytes)]
    omega

/-- With a pair there are fewer. -/
theorem lineEnds_lt {bytes : List UInt8} (h : crLf <:+: bytes) :
    lineEnds bytes < bytes.countP endsLine := by
  unfold lineEnds
  induction bytes using collapse.induct with
  | case1 => simp [crLf] at h
  | case2 b => exact absurd h.length_le (by simp [crLf])
  | case3 b b' bytes hpair ih =>
    obtain ⟨rfl, rfl⟩ := hpair
    have hle := lineEnds_le bytes
    unfold lineEnds at hle
    rw [collapse, if_pos ⟨rfl, rfl⟩, List.countP_cons, List.countP_cons, List.countP_cons]
    have h10 : (if endsLine 0x0a = true then 1 else 0) = 1 := rfl
    have h13 : (if endsLine 0x0d = true then 1 else 0) = 1 := rfl
    omega
  | case4 b b' bytes hpair ih =>
    have hin := (crLf_infix_cons.mp h).resolve_left hpair
    have hlt := ih hin
    rw [collapse, if_neg hpair, List.countP_cons, List.countP_cons (l := b' :: bytes)]
    omega

/-- `poll` keeps the ends of lines. -/
theorem countP_map_crToLf (bytes : List UInt8) :
    (bytes.map crToLf).countP endsLine = bytes.countP endsLine := by
  rw [List.countP_map]
  refine List.countP_congr fun b _ => ?_
  rw [Function.comp_apply, crToLf]
  split
  · rename_i hb
    rw [hb]
    rfl
  · rfl

/-! ## The shell at the keyboard -/

/-- The keyboard and the shell. -/
structure Session where
  kbd : Keyboard
  shell : Shell
  /-- In a call of `read`, how many bytes had been delivered before it. -/
  call : Option ℕ

/-- A step of the keyboard, or of the shell. -/
inductive Event where
  /-- A step of the keyboard, other than a call of `read`. -/
  | kbd (a : Action)
  /-- The shell calls `read` with a buffer of one byte. -/
  | read
  /-- The call has come back. -/
  | ret

namespace Session

/-- The first prompt. -/
def boot : Session := ⟨Keyboard.boot, Shell.start, none⟩

/-- The shell after a call of `read` that delivered some bytes. Without one, it sleeps and tries
again. -/
def resume (shell : Shell) : List UInt8 → Shell
  | [] => shell
  | b :: _ => (shell.turn b).2

/-- One step. The shell is the context `me`, and the only one that reads. -/
def step (me : Ctx) : Event → Session → Option Session
  | .kbd (.read _ _), _ => none
  | .kbd a, s => (s.kbd.step a).map fun kbd => { s with kbd }
  | .read, s =>
    match s.call with
    | some _ => none
    | none =>
      (s.kbd.step (.read me 1)).map fun kbd => { s with kbd, call := some s.kbd.delivered.length }
  | .ret, s =>
    match s.call with
    | none => none
    | some n =>
      if s.kbd.phase me = .idle then
        some { s with shell := resume s.shell (s.kbd.delivered.drop n), call := none }
      else none

/-- A step that an event takes. -/
def Step (me : Ctx) (s : Session) (e : Event) (s' : Session) : Prop := s.step me e = some s'

end Session

/-- The condition for a step not to overflow the buffer. -/
def Event.Fits (s : Session) : Event → Prop
  | kbd a => a.Fits s.kbd
  | read | ret => True

/-- The bytes that arrive with a step. -/
def Event.arrivals : Event → List UInt8
  | kbd a => a.arrivals
  | read | ret => []

namespace Session

variable {me : Ctx} {s s' : Session}

/-- All that was received has come to the shell. -/
structure Done (s : Session) : Prop where
  fifo : s.kbd.uart.fifo = []
  buf : s.kbd.buf.toList = []
  call : s.call = none

/-- What a step does. -/
theorem step_cases {e : Event} (h : s.Step me e s') :
    (∃ a, e = .kbd a ∧ (∀ c slots, a ≠ .read c slots) ∧ s.kbd.Step a s'.kbd ∧
        s'.shell = s.shell ∧ s'.call = s.call) ∨
      (e = .read ∧ s.call = none ∧ s.kbd.Step (.read me 1) s'.kbd ∧ s'.shell = s.shell ∧
        s'.call = some s.kbd.delivered.length) ∨
      ∃ n, e = .ret ∧ s.call = some n ∧ s.kbd.phase me = .idle ∧
        s' = { s with shell := resume s.shell (s.kbd.delivered.drop n), call := none } := by
  cases e with
  | kbd a =>
    have hread : ∀ c slots, a ≠ .read c slots := by
      rintro c slots rfl
      cases h
    -- a read goes through the shell's own call, so it is no event of the keyboard alone
    have hmap : (s.kbd.step a).map (fun kbd => { s with kbd }) = some s' := by
      rw [← show s.step me (.kbd a) = some s' from h]
      cases a with
      | read c slots => exact absurd rfl (hread c slots)
      | _ => rfl
    obtain ⟨kbd, hkbd, rfl⟩ := Option.map_eq_some_iff.mp hmap
    exact .inl ⟨a, rfl, hread, hkbd, rfl, rfl⟩
  | read =>
    rw [Step, step] at h
    split at h
    · cases h
    · rename_i hcall
      obtain ⟨kbd, hkbd, rfl⟩ := Option.map_eq_some_iff.mp h
      exact .inr (.inl ⟨rfl, hcall, hkbd, rfl, rfl⟩)
  | ret =>
    rw [Step, step] at h
    split at h
    · cases h
    · rename_i n hcall
      obtain ⟨hidle, he⟩ := Option.ite_none_right_eq_some.mp h
      cases he
      exact .inr (.inr ⟨n, rfl, hcall, hidle, rfl⟩)

/-- What holds in every state of a run without overflow. The shell has had a turn for each byte that was
delivered, except for those of a call that has not come back, of which there is one at most. -/
structure Inv (me : Ctx) (s : Session) : Prop where
  conserved : s.kbd.Conserved
  others : ∀ c, c ≠ me → (s.kbd.phase c).slots = none
  shell : ∃ handled got, s.kbd.delivered = handled ++ got ∧ s.shell = (Shell.start.feed handled).2 ∧
    (s.call = none → got = [] ∧ (s.kbd.phase me).slots = none) ∧
    ∀ n, s.call = some n →
      n = handled.length ∧ got.length + (s.kbd.phase me).slots.getD 0 ≤ 1

/-- It holds at boot. -/
theorem inv_boot (me : Ctx) : Inv me boot where
  conserved := Keyboard.conserved_boot
  others _ _ := rfl
  shell := ⟨[], [], rfl, rfl, fun _ => ⟨rfl, rfl⟩, fun _ h => nomatch h⟩

/-- It is kept by a step of the keyboard. -/
theorem Inv.kbd (h : Inv me s) {a : Action} (ha : ∀ c slots, a ≠ .read c slots)
    (hs : s.kbd.Step a s'.kbd) (hshell : s'.shell = s.shell) (hcall : s'.call = s.call)
    (hfits : a.Fits s.kbd) : Inv me s' := by
  obtain ⟨handled, got, hdelivered, hfed, hout, hin⟩ := h.shell
  have hconserved := (Keyboard.conserved_step h.conserved hs).mpr hfits
  rcases Keyboard.step_cases ha hs with ⟨hsame, hslots⟩ | ⟨c, n, b, hc, hmore, hphase⟩
  · refine ⟨hconserved, fun c hc => ?_, handled, got, hsame.trans hdelivered, hshell.trans hfed, ?_, ?_⟩
    · rcases hslots c with hslots | hslots
      · rw [hslots, h.others c hc]
      · exact hslots
    · intro hnone
      obtain ⟨hgot, hnoslots⟩ := hout (hcall.symm.trans hnone)
      refine ⟨hgot, ?_⟩
      rcases hslots me with hslots | hslots
      · rw [hslots, hnoslots]
      · exact hslots
    · intro m hm
      obtain ⟨hlen, hle⟩ := hin m (hcall.symm.trans hm)
      refine ⟨hlen, ?_⟩
      rcases hslots me with hslots | hslots
      · rw [hslots]
        exact hle
      · rw [hslots]
        exact (Nat.le_add_right _ _).trans hle
  · -- The byte goes to the shell, in its call.
    have hme : c = me := by
      by_contra hne
      rw [h.others c hne] at hc
      cases hc
    subst hme
    refine ⟨hconserved, fun d hd => ?_, handled, got ++ [b], ?_, hshell.trans hfed, ?_, ?_⟩
    · rw [hphase, Function.update_of_ne hd]
      exact h.others d hd
    · rw [hmore, hdelivered, List.append_assoc]
    · intro hnone
      rw [(hout (hcall.symm.trans hnone)).2] at hc
      cases hc
    · intro m hm
      obtain ⟨hlen, hle⟩ := hin m (hcall.symm.trans hm)
      rw [hc, Option.getD_some] at hle
      refine ⟨hlen, ?_⟩
      rw [hphase, Function.update_self, List.length_append]
      show got.length + 1 + n ≤ 1
      omega

/-- It is kept by a call of `read`. -/
theorem Inv.read (h : Inv me s) (hcall : s.call = none) (hs : s.kbd.Step (.read me 1) s'.kbd)
    (hshell : s'.shell = s.shell) (hcall' : s'.call = some s.kbd.delivered.length) : Inv me s' := by
  obtain ⟨handled, got, hdelivered, hfed, hout, -⟩ := h.shell
  obtain ⟨rfl, -⟩ := hout hcall
  rw [List.append_nil] at hdelivered
  have hconserved := (Keyboard.conserved_step h.conserved hs).mpr trivial
  -- The call begins with `poll`, which delivers nothing, and has one slot.
  obtain ⟨-, he⟩ := Option.ite_none_right_eq_some.mp hs
  obtain ⟨-, hsame, p, hphase, hp⟩ := s.kbd.startPoll_cases me (some 1)
  rw [Option.some.injEq] at he
  rw [he] at hsame hphase
  refine ⟨hconserved, fun c hc => ?_, handled, [], ?_, hshell.trans hfed, ?_, ?_⟩
  · rw [hphase, Function.update_of_ne hc]
    exact h.others c hc
  · rw [hsame, hdelivered, List.append_nil]
  · intro hnone
    rw [hcall'] at hnone
    cases hnone
  · intro n hn
    rw [hcall', Option.some.injEq] at hn
    refine ⟨by rw [← hn, hdelivered], ?_⟩
    rw [hphase, Function.update_self, hp]
    exact le_rfl

/-- It is kept when the call comes back, and the shell has a turn for the byte that it got. -/
theorem Inv.ret (h : Inv me s) {n : ℕ} (hcall : s.call = some n) (hidle : s.kbd.phase me = .idle) :
    Inv me { s with shell := resume s.shell (s.kbd.delivered.drop n), call := none } := by
  obtain ⟨handled, got, hdelivered, hfed, -, hin⟩ := h.shell
  obtain ⟨rfl, hle⟩ := hin n hcall
  -- What the call has got is what was delivered since it began.
  have hdrop : s.kbd.delivered.drop handled.length = got := by
    rw [hdelivered, List.drop_left]
  have hresume : resume s.shell got = (Shell.start.feed (handled ++ got)).2 := by
    match got with
    | [] =>
      rw [List.append_nil]
      exact hfed
    | [b] =>
      rw [Shell.feed_concat, ← hfed]
      rfl
    | _ :: _ :: _ =>
      simp only [List.length_cons] at hle
      omega
  refine ⟨h.conserved, h.others, handled ++ got, [], ?_, ?_, ?_, ?_⟩
  · rw [List.append_nil]
    exact hdelivered
  · show resume s.shell (s.kbd.delivered.drop handled.length) = _
    rw [hdrop, hresume]
  · intro _
    exact ⟨rfl, by rw [hidle]; rfl⟩
  · intro m hm
    cases hm

/-- It is kept by a step that does not overflow the buffer. -/
theorem Inv.step (h : Inv me s) {e : Event} (hs : s.Step me e s') (hfits : e.Fits s) : Inv me s' := by
  rcases step_cases hs with ⟨a, rfl, ha, hkbd, hshell, hcall⟩ | ⟨rfl, hcall, hkbd, hshell, hcall'⟩ |
    ⟨n, rfl, hcall, hidle, rfl⟩
  · exact h.kbd ha hkbd hshell hcall hfits
  · exact h.read hcall hkbd hshell hcall'
  · exact h.ret hcall hidle

/-- What has arrived in a run is what the UART has received. -/
theorem received_trace {ts : List (Transition Session Event)} (h : Trace boot (Step me) ts s) :
    s.kbd.uart.received = yielded (fun x => x.act.arrivals) ts := by
  induction h with
  | nil => rfl
  | cons _ hs ih =>
    rw [yielded_cons, ← ih]
    rcases step_cases hs with ⟨a, rfl, -, hkbd, -⟩ | ⟨rfl, -, hkbd, -⟩ | ⟨n, rfl, -, -, rfl⟩
    · exact Keyboard.received_step hkbd
    · exact Keyboard.received_step hkbd
    · exact (List.append_nil _).symm

/-- A run without overflow in which a stream arrives and comes to the shell. -/
def Receives (me : Ctx) (bytes : List UInt8) (s : Session) : Prop :=
  ∃ ts, Trace boot (Step me) ts s ∧ (∀ x ∈ ts, x.act.Fits x.pre) ∧
    yielded (fun x => x.act.arrivals) ts = bytes ∧ s.Done

/-- However the stream is split, the shell has had a turn for each of its bytes, as `poll` makes them. -/
theorem Receives.shell_eq {bytes : List UInt8} (h : Receives me bytes s) :
    s.shell = (Shell.start.feed (bytes.map crToLf)).2 := by
  obtain ⟨ts, htrace, hfits, hbytes, hdone⟩ := h
  have hinv : Inv me s := htrace.always (inv_boot me) (fun _ _ _ hi hf hs => hi.step hs hf) hfits s
    htrace.end_mem_reached
  obtain ⟨handled, got, hdelivered, hfed, hout, -⟩ := hinv.shell
  obtain ⟨rfl, -⟩ := hout hdone.call
  rw [List.append_nil] at hdelivered
  have htaken : s.kbd.uart.taken = bytes := by
    rw [← hbytes, ← received_trace htrace, Uart.received, hdone.fifo, List.append_nil]
  rw [hfed, ← hdelivered, ← htaken, ← hinv.conserved, hdone.buf, List.append_nil]

/-- It has submitted a line for each byte that ends one. -/
theorem Receives.length_submitted {bytes : List UInt8} (h : Receives me bytes s) :
    s.shell.submitted.length = bytes.countP endsLine := by
  calc s.shell.submitted.length
      = (Shell.start.feed (bytes.map crToLf)).2.submitted.length := by rw [h.shell_eq]
    _ = Shell.start.submitted.length + (bytes.map crToLf).countP endsLine :=
        Shell.length_submitted rfl _
    _ = bytes.countP endsLine := by
        rw [countP_map_crToLf]
        exact Nat.zero_add _

/-! ## Every stream can be received -/

/-- All has come to the shell, and nobody is in a call. -/
structure Rests (me : Ctx) (s : Session) : Prop where
  done : s.Done
  ready : s.kbd.uart.ready = true
  lock : s.kbd.lock = none
  phase : s.kbd.phase me = .idle

/-- A step of the keyboard, unless it is a call of `read`, is a step. -/
theorem step_kbd {a : Action} {k : Keyboard}
    (ha : s.step me (.kbd a) = (s.kbd.step a).map fun kbd => { s with kbd }) (h : s.kbd.Step a k) :
    s.Step me (.kbd a) { s with kbd := k } :=
  ha.trans (congrArg (Option.map fun kbd => { s with kbd }) h)

/-- A byte arrives, and the shell reads it. -/
theorem Rests.next (h : Rests me s) {ts : List (Transition Session Event)}
    (htrace : Trace boot (Step me) ts s) (hfits : ∀ x ∈ ts, x.act.Fits x.pre) (b : UInt8) :
    ∃ ts' s', Trace boot (Step me) ts' s' ∧ (∀ x ∈ ts', x.act.Fits x.pre) ∧
      yielded (fun x => x.act.arrivals) ts' = yielded (fun x => x.act.arrivals) ts ++ [b] ∧
      Rests me s' := by
  obtain ⟨k, shell, call⟩ := s
  obtain ⟨⟨hfifo, hbuf, rfl⟩, hready, hlock, hphase⟩ := h
  have hlen : k.buf.len = 0 := by rw [← Ring.length_toList, hbuf]; rfl
  have hlt : k.buf.len < bufSize := by rw [hlen]; decide
  obtain ⟨buf, hpop, hbuf'⟩ : ∃ buf, (k.buf.push (crToLf b)).pop = some (crToLf b, buf) ∧
      buf.toList = [] := by
    refine Ring.exists_pop_of_toList ?_
    rw [(Keyboard.pushByte_of_lt (crToLf b) hlt).2, hbuf]
    rfl
  -- The byte arrives; the shell calls `read`, whose `poll` takes the byte and then finds no other.
  let k₁ : Keyboard := { k with uart := { k.uart with fifo := [b] } }
  let k₂ : Keyboard := { k₁ with lock := some me }.setPhase me (.polling 0 (some 1))
  let k₃ : Keyboard := { k₂ with
    uart := { k₂.uart with fifo := [], taken := k₂.uart.taken ++ [b] }
    buf := k₂.buf.push (crToLf b) }.setPhase me (.polling 1 (some 1))
  let k₄ : Keyboard := k₃.endPoll me (some 1)
  -- `read` takes the lock and fills its only slot.
  let k₅ : Keyboard := { k₄ with lock := some me }.setPhase me (.reading 1)
  let k₆ : Keyboard := { k₅ with
    buf := buf, delivered := k₅.delivered ++ [crToLf b] }.setPhase me (.reading 0)
  let k₇ : Keyboard := { k₆ with lock := none }.setPhase me .idle
  let n := k.delivered.length
  have h₁ : Step me ⟨k, shell, none⟩ (.kbd (.arrive b)) ⟨k₁, shell, none⟩ := by
    show some _ = some _
    rw [hfifo]
    rfl
  have h₂ : Step me ⟨k₁, shell, none⟩ .read ⟨k₂, shell, some n⟩ := by
    have hstep : k₁.step (.read me 1) = some k₂ := by
      show (if k.phase me = .idle then some (k₁.startPoll me (some 1)) else none) = _
      rw [if_pos hphase, Keyboard.startPoll, if_pos hlock]
    exact congrArg (Option.map _) hstep
  have h₃ : Step me ⟨k₂, shell, some n⟩ (.kbd (.pollByte me)) ⟨k₃, shell, some n⟩ := by
    have hturn : k₂.pollTurn me 0 (some 1) = k₃ :=
      Keyboard.pollTurn_some me (some 1) hready rfl hlt (by decide)
    rw [← hturn]
    exact step_kbd rfl (Keyboard.step_pollByte (Function.update_self ..))
  have h₄ : Step me ⟨k₃, shell, some n⟩ (.kbd (.pollByte me)) ⟨k₄, shell, some n⟩ := by
    have hturn : k₃.pollTurn me 1 (some 1) = k₄ := Keyboard.pollTurn_none me 1 (some 1) rfl
    rw [← hturn]
    exact step_kbd rfl (Keyboard.step_pollByte (Function.update_self ..))
  have h₅ : Step me ⟨k₄, shell, some n⟩ (.kbd (.lock me)) ⟨k₅, shell, some n⟩ := by
    refine step_kbd rfl ?_
    show k₄.step (.lock me) = some k₅
    rw [Keyboard.step, show k₄.phase me = .waiting 1 from Function.update_self ..]
    rfl
  have h₆ : Step me ⟨k₅, shell, some n⟩ (.kbd (.readByte me)) ⟨k₆, shell, some n⟩ := by
    have hturn : k₅.readTurn me 1 = k₆ := by
      rw [Keyboard.readTurn, show k₅.buf.pop = some (crToLf b, buf) from hpop]
    rw [← hturn]
    exact step_kbd rfl (Keyboard.step_readByte (Function.update_self ..))
  have h₇ : Step me ⟨k₆, shell, some n⟩ (.kbd (.readByte me)) ⟨k₇, shell, some n⟩ := by
    rw [show k₇ = k₆.readTurn me 0 from rfl]
    exact step_kbd rfl (Keyboard.step_readByte (Function.update_self ..))
  have h₈ : Step me ⟨k₇, shell, some n⟩ .ret
      ⟨k₇, resume shell (k₇.delivered.drop n), none⟩ := by
    show (if k₇.phase me = .idle then some _ else none) = some _
    rw [if_pos (show k₇.phase me = .idle from Function.update_self ..)]
  refine ⟨_, _, (((((((htrace.cons h₁).cons h₂).cons h₃).cons h₄).cons h₅).cons h₆).cons h₇).cons h₈,
    ?_, ?_, ⟨⟨rfl, hbuf', rfl⟩, hready, rfl, Function.update_self ..⟩⟩
  · -- Only the turns of the loop of `poll` could overflow the buffer.
    simp only [List.forall_mem_cons]
    exact ⟨trivial, trivial, trivial, trivial, fun _ hne => absurd rfl hne, fun _ _ => hlt, trivial,
      trivial, hfits⟩
  · simp only [yielded_cons, Event.arrivals, Action.arrivals, List.append_nil]

/-- Every stream can be received. -/
theorem exists_receives (me : Ctx) (bytes : List UInt8) : ∃ s, Receives me bytes s := by
  suffices hrests : ∃ ts s, Trace boot (Step me) ts s ∧ (∀ x ∈ ts, x.act.Fits x.pre) ∧
      yielded (fun x => x.act.arrivals) ts = bytes ∧ Rests me s by
    obtain ⟨ts, s, htrace, hfits, hbytes, hrests⟩ := hrests
    exact ⟨s, ts, htrace, hfits, hbytes, hrests.done⟩
  induction bytes using List.reverseRecOn with
  | nil =>
    refine ⟨_, _, .cons .nil (step_kbd (a := .init) rfl rfl), ?_, rfl, ?_⟩
    · exact List.forall_mem_cons.mpr ⟨trivial, List.forall_mem_nil _⟩
    · exact ⟨⟨rfl, rfl, rfl⟩, rfl, rfl, rfl⟩
  | append_singleton bytes b ih =>
    obtain ⟨ts, s, htrace, hfits, hbytes, hrests⟩ := ih
    obtain ⟨ts', s', htrace', hfits', hbytes', hrests'⟩ := hrests.next htrace hfits b
    exact ⟨ts', s', htrace', hfits', by rw [hbytes', hbytes], hrests'⟩

end Session

/-! ## One end of a line each -/

/-- What is promised of a stream. However it and the stream without pairs are split across the polls and
the reads, the shell submits the same lines, and one for each end of a line. -/
structure OneLineEach (me : Ctx) (bytes : List UInt8) : Prop where
  same : ∀ s s', Session.Receives me bytes s → Session.Receives me (collapse bytes) s' →
    s.shell.submitted = s'.shell.submitted
  ends : ∀ s, Session.Receives me bytes s → s.shell.submitted.length = lineEnds bytes

/-- A stream has its lines exactly if no carriage return stands before a line feed in it. -/
theorem oneLineEach_iff (me : Ctx) (bytes : List UInt8) :
    OneLineEach me bytes ↔ ¬crLf <:+: bytes := by
  constructor
  · intro h hin
    obtain ⟨s, hs⟩ := Session.exists_receives me bytes
    have hlen : bytes.countP endsLine = lineEnds bytes := hs.length_submitted.symm.trans (h.ends s hs)
    exact absurd hlen (lineEnds_lt hin).ne'
  · intro h
    refine ⟨fun s s' hs hs' => ?_, fun s hs => ?_⟩
    · rw [collapse_eq h] at hs'
      rw [hs.shell_eq, hs'.shell_eq]
    · rw [hs.length_submitted, lineEnds, collapse_eq h]

/-- An `a`, a carriage return and a line feed are two lines, where they should be one. -/
theorem not_oneLineEach : ¬OneLineEach 1 [0x61, 0x0d, 0x0a] := by
  intro h
  obtain ⟨s, hs⟩ := Session.exists_receives 1 [0x61, 0x0d, 0x0a]
  have hlen := hs.length_submitted.symm.trans (h.ends s hs)
  exact absurd hlen (by decide)

end Ralix.User
