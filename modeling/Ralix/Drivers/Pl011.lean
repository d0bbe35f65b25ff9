import Mathlib.Algebra.Order.Ring.Abs
import Mathlib.Tactic.LinearCombination
import Mathlib.Tactic.Ring
import Ralix.Lib.Word
import Ralix.Platform.Board

/-!
# The setup of the UART

`init` of `src/drivers/uart.rs`, which programs the baud rate. The UART divides its clock by
`16 * (ibrd + fbrd / 64)`, with six bits of fraction, and `baud_divisors` rounds the fraction to the
nearest one. A fraction that rounds to 64 does not carry into the integer part but becomes 63.
`baudDivisors_nearest_iff` says which clocks that is wrong for, and `nearest_iff` says it of what `init`
writes.

A write is logged with its register. `Reg.addr` is where the register is.
-/

namespace Ralix.Drivers

open Lib Platform

/-- The statics that `init` reads. -/
structure Port where
  /-- `UART_BASE_ADDR`. -/
  base : ℕ
  /-- `UART_CLOCK_HZ`, 0 if the device tree does not say. -/
  clockHz : UInt32
  /-- `UART_REG_SHIFT`. -/
  regShift : ℕ
  /-- `UART_SKIP_INIT`. -/
  skipInit : Bool

/-- The registers that `init` uses: those of the UART, and three of the GPIO block. -/
inductive Reg where
  | ibrd
  | fbrd
  | lcrh
  | cr
  | imsc
  | icr
  | gpfsel1
  | gppud
  | gppudclk0
deriving DecidableEq, Repr

/-- `reg_addr`. A shift amount wraps as well. -/
def Port.regAddr (p : Port) (offset : ℕ) : ℕ := wadd p.base (offset <<< (p.regShift % 64) % 2^64)

/-- The address of a register. -/
def Reg.addr (p : Port) : Reg → ℕ
  | .ibrd => p.regAddr 0x24
  | .fbrd => p.regAddr 0x28
  | .lcrh => p.regAddr 0x2C
  | .cr => p.regAddr 0x30
  | .imsc => p.regAddr 0x38
  | .icr => p.regAddr 0x44
  | .gpfsel1 => gpioBase + 0x04
  | .gppud => gpioBase + 0x94
  | .gppudclk0 => gpioBase + 0x98

/-- `baud_divisors`: the integer part and the fraction. -/
def baudDivisors (clockHz baud : UInt32) : UInt32 × UInt32 :=
  let baud := baud.toUInt64
  let clock := clockHz.toUInt64
  if baud = 0 then (0, 0)
  else
    let denom := 16 * baud
    let ibrd := (clock / denom).toUInt32
    let rem := clock % denom
    let frac := ((rem * 64 + denom / 2) / denom).toUInt32
    let fbrd := if frac > 63 then 63 else frac
    (ibrd, fbrd)

/-- The bits of `UART_CR` for the UART, its transmitter, and its receiver. -/
def crEnable : UInt32 := (1 : UInt32) <<< 0 ||| (1 : UInt32) <<< 8 ||| (1 : UInt32) <<< 9

/-- What `init` does to the GPIO block on `qemu`: GPIO14 and GPIO15 to ALT0, without pull-up and
pull-down. -/
def gpioWrites (read : Reg → UInt32) : Board → List (Reg × UInt32)
  | .rpi5 => []
  | .qemu => [
    (.gpfsel1, (read .gpfsel1 &&& ~~~((7 : UInt32) <<< 12 ||| (7 : UInt32) <<< 15)) |||
      ((4 : UInt32) <<< 12 ||| (4 : UInt32) <<< 15)),
    (.gppud, 0),
    (.gppudclk0, (1 : UInt32) <<< 14 ||| (1 : UInt32) <<< 15),
    (.gppudclk0, 0)]

/-- The divisors that `init` writes. -/
def Port.divisors (p : Port) : UInt32 × UInt32 :=
  if p.clockHz ≠ 0 then baudDivisors p.clockHz 115200 else (26, 3)

/-- `init`: its writes in order, and whether the UART is ready after it. A register that is read has
the value `read` says. -/
def Port.init (p : Port) (board : Board) (read : Reg → UInt32) : List (Reg × UInt32) × Bool :=
  if p.base = 0 then ([], false)
  else if p.skipInit then ([(.cr, read .cr ||| crEnable)], true)
  else
    ((.cr, 0) :: gpioWrites read board ++
      [(.icr, 0x7FF), (.ibrd, p.divisors.1), (.fbrd, p.divisors.2),
        (.lcrh, (1 : UInt32) <<< 4 ||| (3 : UInt32) <<< 5), (.imsc, 0), (.cr, crEnable)], true)

/-! ## Divisors -/

/-- The base rate does not wrap. -/
theorem denom_toNat (baud : UInt32) : (16 * baud.toUInt64).toNat = 16 * baud.toNat := by
  have hb := baud.toNat_lt
  rw [UInt64.toNat_mul, UInt32.toNat_toUInt64]
  show 16 * baud.toNat % 2^64 = _
  omega

/-- The fraction that is kept. -/
theorem kept_toNat (frac : UInt32) : (if frac > 63 then 63 else frac).toNat = min 63 frac.toNat := by
  have hgt : frac > 63 ↔ 63 < frac.toNat := UInt32.lt_iff_toNat_lt
  by_cases h : frac > 63
  · rw [if_pos h, Nat.min_eq_left (hgt.mp h).le]
    rfl
  · rw [if_neg h, Nat.min_eq_right (Nat.not_lt.mp fun hlt => h (hgt.mpr hlt))]

/-- The values that `baud_divisors` computes. None of its sums and products wraps. -/
theorem baudDivisors_val (clockHz : UInt32) {baud : UInt32} (hbaud : baud ≠ 0) :
    (baudDivisors clockHz baud).1.toNat = clockHz.toNat / (16 * baud.toNat) ∧
      (baudDivisors clockHz baud).2.toNat =
        min 63 ((clockHz.toNat % (16 * baud.toNat) * 64 + 16 * baud.toNat / 2) / (16 * baud.toNat)) := by
  have hc := clockHz.toNat_lt
  have hb := baud.toNat_lt
  have hpos : 0 < baud.toNat := by
    rw [Nat.pos_iff_ne_zero]
    intro hzero
    exact hbaud (UInt32.toNat_inj.mp hzero)
  have hne : baud.toUInt64 ≠ 0 := by
    intro hzero
    have hzero := congrArg UInt64.toNat hzero
    rw [UInt32.toNat_toUInt64] at hzero
    exact absurd hzero (Nat.pos_iff_ne_zero.mp hpos)
  have hdenom := denom_toNat baud
  have hrem := Nat.mod_lt clockHz.toNat (show 0 < 16 * baud.toNat by omega)
  have hsum : (clockHz.toUInt64 % (16 * baud.toUInt64) * 64 + 16 * baud.toUInt64 / 2).toNat =
      clockHz.toNat % (16 * baud.toNat) * 64 + 16 * baud.toNat / 2 := by
    rw [UInt64.toNat_add, UInt64.toNat_mul, UInt64.toNat_mod, UInt64.toNat_div, hdenom,
      UInt32.toNat_toUInt64]
    show (clockHz.toNat % (16 * baud.toNat) * 64 % 2^64 + 16 * baud.toNat / 2) % 2^64 = _
    omega
  -- the fraction rounds to 64 at most
  have hfrac : (clockHz.toNat % (16 * baud.toNat) * 64 + 16 * baud.toNat / 2) / (16 * baud.toNat) < 65 :=
    Nat.div_lt_of_lt_mul (by omega)
  unfold baudDivisors
  dsimp only
  rw [if_neg hne]
  constructor
  · rw [UInt64.toNat_toUInt32, UInt64.toNat_div, hdenom, UInt32.toNat_toUInt64]
    exact Nat.mod_eq_of_lt ((Nat.div_le_self _ _).trans_lt hc)
  · rw [kept_toNat, UInt64.toNat_toUInt32, UInt64.toNat_div, hsum, hdenom]
    exact congrArg (min 63) (Nat.mod_eq_of_lt (hfrac.trans (by decide)))

/-! ## The nearest divisors -/

/-- How far a clock is from the one that divisors are right for, in 64ths. -/
def baudError (clockHz baud : UInt32) (d : UInt32 × UInt32) : ℤ :=
  64 * clockHz.toNat - 16 * baud.toNat * (64 * d.1.toNat + d.2.toNat)

/-- Divisors that the UART has, and that are off by half a 64th at most. -/
def Nearest (clockHz baud : UInt32) (d : UInt32 × UInt32) : Prop :=
  d.2.toNat ≤ 63 ∧ |baudError clockHz baud d| ≤ 16 * baud.toNat / 2

/-- No divisors are closer. -/
theorem Nearest.le {clockHz baud : UInt32} {d : UInt32 × UInt32} (h : Nearest clockHz baud d)
    (d' : UInt32 × UInt32) : |baudError clockHz baud d| ≤ |baudError clockHz baud d'| := by
  have hdiff : baudError clockHz baud d' - baudError clockHz baud d = 16 * baud.toNat *
      ((64 * d.1.toNat + d.2.toNat : ℤ) - (64 * d'.1.toNat + d'.2.toNat)) := by
    unfold baudError
    ring
  by_cases heq : (64 * d.1.toNat + d.2.toNat : ℤ) = 64 * d'.1.toNat + d'.2.toNat
  · rw [baudError, baudError, heq]
  -- other divisors are off by a whole step from these
  have hone : 1 ≤ |(64 * d.1.toNat + d.2.toNat : ℤ) - (64 * d'.1.toNat + d'.2.toNat)| :=
    Int.one_le_abs (sub_ne_zero.mpr heq)
  have hstep : (16 * baud.toNat : ℤ) ≤ |baudError clockHz baud d' - baudError clockHz baud d| := by
    have hnonneg : (0 : ℤ) ≤ 16 * baud.toNat := by omega
    rw [hdiff, abs_mul, abs_of_nonneg hnonneg]
    exact le_mul_of_one_le_right hnonneg hone
  have htriangle := abs_sub (baudError clockHz baud d') (baudError clockHz baud d)
  have hhalf := h.2
  omega

/-- What rounding leaves of a remainder, with a fraction of 63 at most, is half a step or less exactly
if the remainder is not closer to the next multiple of the divisor. -/
theorem rounded_iff {r d g : ℕ} (hd : d % 2 = 0) (hle : d * g ≤ r * 64 + d / 2)
    (hlt : r * 64 + d / 2 < d * (g + 1)) :
    |64 * (r : ℤ) - d * (min 63 g : ℕ)| ≤ d / 2 ↔ 128 * r ≤ 127 * d := by
  rw [Nat.mul_add d g 1, Nat.mul_one] at hlt
  rw [abs_le]
  rcases Nat.lt_or_ge 63 g with hg | hg
  · -- the fraction is cut off, and all of what it misses is above it
    have hprod : d * 64 ≤ d * g := Nat.mul_le_mul_left d hg
    rw [Nat.min_eq_left hg.le]
    omega
  · have hprod : d * g ≤ d * 63 := Nat.mul_le_mul_left d hg
    rw [Nat.min_eq_right hg]
    refine iff_of_true ?_ (by omega)
    rw [← Nat.cast_mul]
    omega

/-- `baud_divisors` finds the nearest divisors exactly if the clock is not within half a 64th of the
next multiple of the base rate. -/
theorem baudDivisors_nearest_iff (clockHz : UInt32) {baud : UInt32} (hbaud : baud ≠ 0) :
    Nearest clockHz baud (baudDivisors clockHz baud) ↔
      128 * (clockHz.toNat % (16 * baud.toNat)) ≤ 127 * (16 * baud.toNat) := by
  obtain ⟨hibrd, hfbrd⟩ := baudDivisors_val clockHz hbaud
  have hpos : 0 < 16 * baud.toNat := by
    have hne : baud.toNat ≠ 0 := fun hzero => hbaud (UInt32.toNat_inj.mp hzero)
    omega
  have hdiv : (16 * baud.toNat : ℕ) * (clockHz.toNat / (16 * baud.toNat) : ℕ) +
      (clockHz.toNat % (16 * baud.toNat) : ℕ) = (clockHz.toNat : ℤ) :=
    congrArg Nat.cast (Nat.div_add_mod clockHz.toNat (16 * baud.toNat))
  have hcast : (16 * baud.toNat : ℤ) = (16 * baud.toNat : ℕ) := rfl
  -- the integer part takes the multiples of the base rate away
  have hsplit : baudError clockHz baud (baudDivisors clockHz baud) =
      64 * ((clockHz.toNat % (16 * baud.toNat) : ℕ) : ℤ) - (16 * baud.toNat : ℕ) *
        (min 63 ((clockHz.toNat % (16 * baud.toNat) * 64 + 16 * baud.toNat / 2) /
          (16 * baud.toNat)) : ℕ) := by
    rw [baudError, hibrd, hfbrd, hcast]
    linear_combination -64 * hdiv
  have hrounded := rounded_iff (r := clockHz.toNat % (16 * baud.toNat)) (d := 16 * baud.toNat)
    (g := (clockHz.toNat % (16 * baud.toNat) * 64 + 16 * baud.toNat / 2) / (16 * baud.toNat))
    (by omega) (Nat.mul_div_le _ _) (Nat.lt_mul_div_succ _ hpos)
  rw [Nearest, hsplit, hcast, hfbrd]
  exact (and_iff_right (Nat.min_le_left _ _)).trans hrounded

/-! ## What `init` writes -/

/-- `init` writes each divisor once. -/
theorem Port.mem_init_iff {p : Port} (hbase : p.base ≠ 0) (hskip : p.skipInit = false) (board : Board)
    (read : Reg → UInt32) (v : UInt32) :
    ((Reg.ibrd, v) ∈ (p.init board read).1 ↔ v = p.divisors.1) ∧
      ((Reg.fbrd, v) ∈ (p.init board read).1 ↔ v = p.divisors.2) := by
  have hgpio : ∀ r, r = Reg.ibrd ∨ r = Reg.fbrd → (r, v) ∉ gpioWrites read board := by
    rintro r (rfl | rfl)
    · cases board <;> simp [gpioWrites]
    · cases board <;> simp [gpioWrites]
  rw [Port.init, if_neg hbase, if_neg (by simp [hskip])]
  constructor
  · simp [hgpio Reg.ibrd (.inl rfl)]
  · simp [hgpio Reg.fbrd (.inr rfl)]

/-- `init` programs the nearest divisors of 115200 baud for a clock of the device tree exactly if the
clock is at most 1828800 Hz past a multiple of the base rate. -/
theorem nearest_iff (p : Port) (board : Board) (read : Reg → UInt32) (hbase : p.base ≠ 0)
    (hskip : p.skipInit = false) (hclock : p.clockHz ≠ 0) :
    (∃ ibrd fbrd, (∀ v, (Reg.ibrd, v) ∈ (p.init board read).1 ↔ v = ibrd) ∧
      (∀ v, (Reg.fbrd, v) ∈ (p.init board read).1 ↔ v = fbrd) ∧
      Nearest p.clockHz 115200 (ibrd, fbrd)) ↔
    p.clockHz.toNat % (16 * 115200) ≤ 1828800 := by
  have hdivisors : p.divisors = baudDivisors p.clockHz 115200 := if_pos hclock
  have hnearest := baudDivisors_nearest_iff p.clockHz (show (115200 : UInt32) ≠ 0 by decide)
  rw [show (115200 : UInt32).toNat = 115200 from rfl] at hnearest
  have hbound : p.clockHz.toNat % (16 * 115200) ≤ 1828800 ↔
      128 * (p.clockHz.toNat % (16 * 115200)) ≤ 127 * (16 * 115200) := by omega
  rw [hbound, ← hnearest, ← hdivisors]
  constructor
  · rintro ⟨ibrd, fbrd, hibrd, hfbrd, h⟩
    have hi := ((Port.mem_init_iff hbase hskip board read ibrd).1.symm.trans (hibrd ibrd)).mpr rfl
    have hf := ((Port.mem_init_iff hbase hskip board read fbrd).2.symm.trans (hfbrd fbrd)).mpr rfl
    rwa [hi, hf] at h
  · intro h
    exact ⟨p.divisors.1, p.divisors.2, fun v => (Port.mem_init_iff hbase hskip board read v).1,
      fun v => (Port.mem_init_iff hbase hskip board read v).2, h⟩

/-- A UART of the RP1 with a clock of the device tree. -/
def rp1Port (clockHz : UInt32) : Port := ⟨0x1c00030000, clockHz, 0, false⟩

/-- `nearest_iff` at a clock of 48 MHz. -/
theorem nearest_iff_fortyEight :
    ∃ ibrd fbrd, (∀ v, (Reg.ibrd, v) ∈ ((rp1Port 48000000).init .rpi5 fun _ => 0).1 ↔ v = ibrd) ∧
      (∀ v, (Reg.fbrd, v) ∈ ((rp1Port 48000000).init .rpi5 fun _ => 0).1 ↔ v = fbrd) ∧
      Nearest 48000000 115200 (ibrd, fbrd) :=
  (nearest_iff (rp1Port 48000000) .rpi5 (fun _ => 0) (by decide) rfl (by decide)).mpr (by decide)

/-- A clock just below a multiple of the base rate: `init` programs 1 + 63/64, which is off by almost
a whole 64th, where 2 + 0/64 is almost right. -/
theorem not_nearest :
    (Reg.ibrd, 1) ∈ ((rp1Port 3686399).init .rpi5 fun _ => 0).1 ∧
      (Reg.fbrd, 63) ∈ ((rp1Port 3686399).init .rpi5 fun _ => 0).1 ∧
      ¬ Nearest 3686399 115200 (1, 63) ∧ Nearest 3686399 115200 (2, 0) := by
  refine ⟨by decide, by decide, ?_, ?_⟩
  · intro h
    exact absurd h.2 (by decide)
  · exact ⟨by decide, by decide⟩

end Ralix.Drivers
