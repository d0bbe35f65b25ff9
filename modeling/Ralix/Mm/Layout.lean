import Ralix.Lib.Word

/-!
# The layout of memory

`src/mm/layout.rs`: page arithmetic and the kernel's window on physical memory. Addresses are
natural numbers, and the arithmetic is that of `u64` in the release build.
-/

namespace Ralix.Mm

open Lib

/-- The size of a page and of a frame. -/
def pageSize : ℕ := 4096

/-- Where the boot image is loaded. -/
def kernelPhysBase : ℕ := 0x80000

/-- Where the kernel's window on physical memory begins. -/
def kernelVirtBase : ℕ := 0xFFFF800000000000

/-- `align_up`. -/
def alignUp (value align : ℕ) : ℕ := wsub (wadd value align) 1 &&& wnot (wsub align 1)

/-- `align_down`. -/
def alignDown (value align : ℕ) : ℕ := value &&& wnot (wsub align 1)

/-- `phys_to_virt`. -/
def physToVirt (paddr : ℕ) : ℕ := wadd paddr kernelVirtBase

/-- `virt_to_phys`. -/
def virtToPhys (vaddr : ℕ) : ℕ := wsub vaddr kernelVirtBase

/-- The mask of `align_up` and `align_down` at a power of two. -/
theorem wnot_wsub_one {k : ℕ} (hk : k < 64) : wnot (wsub (2^k) 1) = 2^64 - 2^k := by
  have hpos : 0 < 2^k := Nat.two_pow_pos k
  have hlt : 2^k < 2^64 := Nat.pow_lt_pow_right (by decide) hk
  rw [wsub_of_le hlt hpos, wnot]
  omega

/-- `align_down` to a power of two rounds down to a multiple of it. -/
theorem alignDown_spec {value k : ℕ} (hv : value < 2^64) (hk : k < 64) :
    alignDown value (2^k) = value / 2^k * 2^k := by
  rw [alignDown, wnot_wsub_one hk, and_highMask hv hk.le]

/-- `align_up` to a power of two rounds up to a multiple of it, unless it passes the end of the
address space. -/
theorem alignUp_spec {value k : ℕ} (hk : k < 64) (hv : value + 2^k ≤ 2^64) :
    alignUp value (2^k) = (value + 2^k - 1) / 2^k * 2^k := by
  have hpos : 0 < 2^k := Nat.two_pow_pos k
  have hsum : wsub (wadd value (2^k)) 1 = value + 2^k - 1 := by
    unfold wsub wadd
    omega
  rw [alignUp, hsum, wnot_wsub_one hk, and_highMask (by omega) hk.le]

/-- `align_up` to a power of two returns a multiple of it in the address space. -/
theorem alignUp_dvd (value : ℕ) {k : ℕ} (hk : k < 64) :
    alignUp value (2^k) % 2^k = 0 ∧ alignUp value (2^k) < 2^64 := by
  have hlt : wsub (wadd value (2^k)) 1 < 2^64 := Nat.mod_lt _ (by decide)
  rw [alignUp, wnot_wsub_one hk, and_highMask hlt hk.le]
  exact ⟨Nat.mul_mod_left _ _, (Nat.div_mul_le_self _ _).trans_lt hlt⟩

/-- `align_up` to a power of two wraps around to zero past the last multiple of it. -/
theorem alignUp_of_wrap {value k : ℕ} (hv : value < 2^64) (hk : k < 64)
    (hwrap : 2^64 < value + 2^k) : alignUp value (2^k) = 0 := by
  have hpow : 2^k < 2^64 := Nat.pow_lt_pow_right (by decide) hk
  -- The sum passes the end of the address space by less than the alignment.
  have hsum : wsub (wadd value (2^k)) 1 = value + 2^k - 1 - 2^64 := by
    unfold wsub wadd
    omega
  rw [alignUp, wnot_wsub_one hk, hsum, and_highMask (by omega) hk.le,
    Nat.div_eq_of_lt (by omega), Nat.zero_mul]

/-- `align_up` to a power of two rounds up, or wraps around to zero. -/
theorem le_alignUp {value k : ℕ} (hv : value < 2^64) (hk : k < 64) (h : alignUp value (2^k) ≠ 0) :
    value ≤ alignUp value (2^k) := by
  have hpos : 0 < 2^k := Nat.two_pow_pos k
  rcases Nat.lt_or_ge (2^64) (value + 2^k) with hwrap | hfit
  · exact absurd (alignUp_of_wrap hv hk hwrap) h
  · rw [alignUp_spec hk hfit]
    have hdiv := Nat.div_add_mod (value + 2^k - 1) (2^k)
    have hmod := Nat.mod_lt (value + 2^k - 1) hpos
    rw [Nat.mul_comm] at hdiv
    omega

/-- `align_down` to a page. -/
theorem alignDown_page {value : ℕ} (hv : value < 2^64) :
    alignDown value pageSize = value / 4096 * 4096 :=
  alignDown_spec (k := 12) hv (by decide)

/-- `align_up` to a page. -/
theorem alignUp_page {value : ℕ} (hv : value ≤ 2^64 - 4096) :
    alignUp value pageSize = (value + 4095) / 4096 * 4096 :=
  alignUp_spec (k := 12) (by decide) (by omega)

/-- `align_up` leaves a page boundary where it is. -/
theorem alignUp_page_of_dvd {value : ℕ} (hv : value < 2^64) (hd : value % 4096 = 0) :
    alignUp value pageSize = value := by
  rw [alignUp_page (by omega)]
  omega

end Ralix.Mm
