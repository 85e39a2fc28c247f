import Mathlib.Data.BitVec

/-!
# Base — machine words and the two address windows

`uint64_t` values are `BitVec 64`.  The kernel sees physical memory through the window that starts
at `KERNBASE`; user allocations are handed out as addresses in the window that starts at
`USERBASE` (`include/sys/virtualmem.h`).
-/

namespace OswpKernel

/-- `uint64_t`. -/
abbrev Word := BitVec 64

def KERNBASE : Word := 0xffffffff80000000#64

def USERBASE : Word := 0xFFFFCCCC00000000#64

/-- Physical addresses the kernel window can reach: the lowest 2 GiB. -/
def directMapLimit : Nat := 2 ^ 31

/-! ## Low addresses and the windows -/

theorem getLsbD_of_low {p : Word} (hp : p.toNat < directMapLimit) {i : Nat} (hi : 31 ≤ i) :
    p.getLsbD i = false := by
  have : p.toNat < 2 ^ i := hp.trans_le (Nat.pow_le_pow_right (by decide) hi)
  simpa [BitVec.getLsbD] using Nat.testBit_lt_two_pow this

/-- A low address has no bit in common with the base of the kernel window. -/
theorem low_and_KERNBASE {p : Word} (hp : p.toNat < directMapLimit) : p &&& KERNBASE = 0#64 := by
  have hbase : ∀ j : Fin 64, (j : Nat) < 31 → KERNBASE.getLsbD j = false := by decide
  apply BitVec.eq_of_getLsbD_eq
  intro i hi
  by_cases h : 31 ≤ i
  · simp [getLsbD_of_low hp h]
  · simp [hbase ⟨i, hi⟩ (by simpa using h)]

theorem low_and_USERBASE {p : Word} (hp : p.toNat < directMapLimit) : p &&& USERBASE = 0#64 := by
  have hsub : USERBASE = KERNBASE &&& USERBASE := by decide
  rw [hsub, ← BitVec.and_assoc, low_and_KERNBASE hp, BitVec.zero_and]

/-- Adding a low address to a window base only fills in zero bits of the base. -/
theorem add_and_of_low {base p mask : Word} (hbase : p &&& base = 0#64)
    (hmask : p &&& mask = 0#64) : (base + p) &&& mask = base &&& mask := by
  rw [BitVec.add_eq_or_of_and_eq_zero _ _ (by rw [BitVec.and_comm, hbase]),
    BitVec.and_or_distrib_right, hmask, BitVec.or_zero]

end OswpKernel
