import Mathlib.Order.Monotone.Basic
import Ralix.Kernel.Vfs

/-!
# Sleeping

`delay_ms` of `src/arch/aarch64/timer.rs`, and the system call that lets a program wait with it. The
delay reads the counter of the CPU until it has advanced by the ticks in so many milliseconds. The
counter is a 64-bit register, so it shows a count modulo `2^64`: here the count itself is a monotone
sequence of natural numbers, one for each read.

The loop compares a wrapping difference, so it does not matter if the counter wraps (`delayMs_waits`).
But the product of the frequency and the milliseconds wraps before it is divided, and then the delay is
shorter than it was asked to be (`sleeps_iff`).
-/

namespace Ralix.Kernel

open Lib Arch

/-- What reads of the counter return while the count goes on. -/
def counterOf (counts : ℕ → ℕ) (n : ℕ) : BitVec 64 := BitVec.ofNat 64 (counts n)

/-- The ticks that `delay_ms` waits for. -/
def delayTicks (frequency ms : BitVec 64) : BitVec 64 := frequency * ms / 1000

/-- The loop of `delay_ms` from its read `n` on, for `fuel` reads at most: the read that ends it. -/
def delayLoop (counter : ℕ → BitVec 64) (start ticks : BitVec 64) : ℕ → ℕ → Option ℕ
  | 0, _ => none
  | fuel + 1, n =>
    if counter n - start < ticks then delayLoop counter start ticks fuel (n + 1) else some n

/-- `delay_ms`, for `fuel` reads of the counter after the first one at most: the read after which it
returns. -/
def delayMs (frequency : BitVec 64) (counter : ℕ → BitVec 64) (fuel : ℕ) (ms : BitVec 64) : Option ℕ :=
  let ticks := delayTicks frequency ms
  let start := counter 0
  delayLoop counter start ticks fuel 1

/-- The `SYSCALL_SLEEP_MS` branch of `sync_handler`: the frame it returns, and the last read. -/
def sysSleepMs (frequency : BitVec 64) (counter : ℕ → BitVec 64) (fuel : ℕ) (frame : TrapFrame) :
    Option (TrapFrame × ℕ) := do
  let ms := reg frame 0
  let n ← delayMs frequency counter fuel ms
  return (ret frame 0, n)

/-! ## The loop -/

/-- The loop ends at the first read at which the counter has advanced far enough. -/
theorem delayLoop_eq_some_iff {counter : ℕ → BitVec 64} {start ticks : BitVec 64} {fuel i n : ℕ} :
    delayLoop counter start ticks fuel i = some n ↔
      i ≤ n ∧ n < i + fuel ∧ ¬ counter n - start < ticks ∧
        ∀ j, i ≤ j → j < n → counter j - start < ticks := by
  induction fuel generalizing i with
  | zero =>
    refine iff_of_false nofun ?_
    rintro ⟨hle, hlt, -⟩
    omega
  | succ fuel ih =>
    rw [delayLoop]
    by_cases hlt : counter i - start < ticks
    · rw [if_pos hlt, ih]
      constructor
      · rintro ⟨hle, hfuel, hn, hbefore⟩
        refine ⟨by omega, by omega, hn, fun j hij hjn => ?_⟩
        rcases Nat.eq_or_lt_of_le hij with rfl | hij
        · exact hlt
        · exact hbefore j hij hjn
      · rintro ⟨hle, hfuel, hn, hbefore⟩
        -- the loop does not end at `i`
        have hne : i ≠ n := by
          rintro rfl
          exact hn hlt
        exact ⟨by omega, by omega, hn, fun j hij hjn => hbefore j (by omega) hjn⟩
    · rw [if_neg hlt, Option.some.injEq]
      constructor
      · rintro rfl
        exact ⟨le_rfl, by omega, hlt, fun j hij hjn => by omega⟩
      · rintro ⟨hle, -, -, hbefore⟩
        by_contra hne
        exact hlt (hbefore i le_rfl (by omega))

section Counter

variable {counts : ℕ → ℕ}

/-- The wrapping difference of two reads is how far the count has come, modulo `2^64`. -/
theorem counterOf_sub (hmono : Monotone counts) (n : ℕ) :
    (counterOf counts n - counterOf counts 0).toNat = (counts n - counts 0) % 2^64 := by
  have hle := hmono (Nat.zero_le n)
  rw [counterOf, counterOf, BitVec.toNat_sub, BitVec.toNat_ofNat, BitVec.toNat_ofNat]
  omega

/-- `delay_ms` waits for its ticks. -/
theorem delayMs_waits (hmono : Monotone counts) {frequency ms : BitVec 64} {fuel n : ℕ}
    (h : delayMs frequency (counterOf counts) fuel ms = some n) :
    (delayTicks frequency ms).toNat ≤ counts n - counts 0 := by
  obtain ⟨-, -, hn, -⟩ := delayLoop_eq_some_iff.mp h
  rw [BitVec.not_lt, BitVec.le_def, counterOf_sub hmono] at hn
  exact hn.trans (Nat.mod_le _ _)

/-- `delay_ms` returns, if the count reaches the ticks and no read misses the time in which the wrapping
difference shows it. -/
theorem delayMs_returns (hmono : Monotone counts) {frequency ms : BitVec 64} {n : ℕ}
    (hn : counts 0 + (delayTicks frequency ms).toNat ≤ counts n)
    (hstep : ∀ i, counts (i + 1) + (delayTicks frequency ms).toNat ≤ counts i + 2^64) :
    ∃ i ≤ n + 1, delayMs frequency (counterOf counts) (n + 1) ms = some i := by
  -- `i + 1` is the first read after the first one that shows the ticks
  have hex : ∃ i, counts 0 + (delayTicks frequency ms).toNat ≤ counts (i + 1) :=
    ⟨n, hn.trans (hmono (Nat.le_succ n))⟩
  obtain ⟨i, hi, hmin⟩ := Nat.findX hex
  have hin : i ≤ n := by
    by_contra hlt
    exact hmin n (by omega) (hn.trans (hmono (Nat.le_succ n)))
  refine ⟨i + 1, by omega, delayLoop_eq_some_iff.mpr ⟨by omega, by omega, ?_, fun j hj hji => ?_⟩⟩
  · have hdiff : counts (i + 1) - counts 0 < 2^64 ∨ (delayTicks frequency ms).toNat = 0 := by
      have hstep := hstep i
      rcases Nat.eq_zero_or_pos i with rfl | hpos
      · omega
      · have hbefore := hmin (i - 1) (by omega)
        rw [Nat.sub_add_cancel hpos] at hbefore
        omega
    rw [BitVec.not_lt, BitVec.le_def, counterOf_sub hmono]
    rcases hdiff with hlt | hzero
    · rw [Nat.mod_eq_of_lt hlt]
      omega
    · rw [hzero]
      exact Nat.zero_le _
  · have hbefore := hmin (j - 1) (by omega)
    have hge := hmono (Nat.zero_le j)
    rw [Nat.sub_add_cancel hj] at hbefore
    rw [BitVec.lt_def, counterOf_sub hmono]
    exact (Nat.mod_le _ _).trans_lt (by omega)

end Counter

/-- The ticks that `delay_ms` waits for, unless the product wraps. -/
theorem delayTicks_val (frequency ms : BitVec 64) :
    (delayTicks frequency ms).toNat = frequency.toNat * ms.toNat % 2^64 / 1000 := by
  rw [delayTicks, BitVec.toNat_udiv, BitVec.toNat_mul]
  rfl

/-! ## The system call -/

/-- The system call returns only after the ticks of its milliseconds, for every monotone count. -/
def Sleeps (frequency : BitVec 64) (frame : TrapFrame) : Prop :=
  ∀ counts : ℕ → ℕ, Monotone counts → ∀ fuel frame' n,
    sysSleepMs frequency (counterOf counts) fuel frame = some (frame', n) →
      frequency.toNat * (reg frame 0).toNat / 1000 ≤ counts n - counts 0

/-- A system call that returned has returned from the delay. -/
theorem sysSleepMs_eq_some {frequency : BitVec 64} {counter : ℕ → BitVec 64} {fuel n : ℕ}
    {frame frame' : TrapFrame} (h : sysSleepMs frequency counter fuel frame = some (frame', n)) :
    delayMs frequency counter fuel (reg frame 0) = some n ∧ frame' = ret frame 0 := by
  obtain ⟨n', hn', h⟩ := Option.bind_eq_some_iff.mp h
  cases h
  exact ⟨hn', rfl⟩

/-- A count that jumps to a number after the first read, and stays there. -/
def jumpTo (ticks n : ℕ) : ℕ := if n = 0 then 0 else ticks

/-- It does not go back. -/
theorem jumpTo_monotone (ticks : ℕ) : Monotone (jumpTo ticks) := by
  refine monotone_nat_of_le_succ fun n => ?_
  unfold jumpTo
  split
  · exact Nat.zero_le _
  · exact le_rfl

/-- `delay_ms` returns once the counter has jumped by its ticks. -/
theorem delayMs_jumpTo (frequency ms : BitVec 64) :
    delayMs frequency (counterOf (jumpTo (delayTicks frequency ms).toNat)) 1 ms = some 1 := by
  refine delayLoop_eq_some_iff.mpr ⟨le_rfl, Nat.lt_succ_self 1, ?_, fun j hj hj' => by omega⟩
  rw [BitVec.not_lt, BitVec.le_def, counterOf_sub (jumpTo_monotone _)]
  show _ ≤ (delayTicks frequency ms).toNat % 2^64
  rw [Nat.mod_eq_of_lt (delayTicks frequency ms).isLt]

/-- So does the system call. -/
theorem sysSleepMs_jumpTo (frequency : BitVec 64) (frame : TrapFrame) :
    sysSleepMs frequency (counterOf (jumpTo (delayTicks frequency (reg frame 0)).toNat)) 1 frame =
      some (ret frame 0, 1) := by
  rw [sysSleepMs, delayMs_jumpTo]
  rfl

/-- The system call waits long enough exactly if the product of the frequency and the milliseconds fits
into 64 bits. -/
theorem sleeps_iff (frequency : BitVec 64) (frame : TrapFrame) :
    Sleeps frequency frame ↔ frequency.toNat * (reg frame 0).toNat < 2^64 := by
  constructor
  · intro h
    -- the counter may have advanced by just the ticks that `delay_ms` waits for
    have hwaited := h _ (jumpTo_monotone _) 1 _ 1 (sysSleepMs_jumpTo frequency frame)
    have hticks : jumpTo (delayTicks frequency (reg frame 0)).toNat 1 -
        jumpTo (delayTicks frequency (reg frame 0)).toNat 0 =
          frequency.toNat * (reg frame 0).toNat % 2^64 / 1000 := delayTicks_val _ _
    rw [hticks] at hwaited
    by_contra hwrap
    omega
  · intro hfit counts hmono fuel frame' n h
    have hwaits := delayMs_waits hmono (sysSleepMs_eq_some h).1
    rwa [delayTicks_val, Nat.mod_eq_of_lt hfit] at hwaits

/-- The frame of a call to sleep for so many milliseconds. -/
def sleepFrame (ms : BitVec 64) : TrapFrame := ⟨fun _ => ms, 0, 0, 0, 0, 0⟩

/-- At 54 MHz, the product for 341606371736 ms wraps, and the call returns after 34448 ticks, in less
than a millisecond. -/
theorem not_sleeps :
    sysSleepMs 54000000 (counterOf (jumpTo 34448)) 1 (sleepFrame 341606371736) =
        some (ret (sleepFrame 341606371736) 0, 1) ∧
      ¬ Sleeps 54000000 (sleepFrame 341606371736) := by
  have hticks : (delayTicks 54000000 341606371736).toNat = 34448 := by decide +kernel
  have hreturns := sysSleepMs_jumpTo 54000000 (sleepFrame 341606371736)
  rw [show reg (sleepFrame 341606371736) 0 = 341606371736 from rfl, hticks] at hreturns
  refine ⟨hreturns, fun h => ?_⟩
  exact absurd (h _ (jumpTo_monotone _) 1 _ 1 hreturns) (by decide +kernel)

end Ralix.Kernel
