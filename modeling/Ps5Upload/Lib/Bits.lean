import Mathlib.Data.List.Basic
import Mathlib.Data.Nat.Bitwise
import Mathlib.Tactic.Common
import Ps5Upload.Lib.Bytes

/-!
# Bit streams

A stream of bits is a function from positions.  `msbBit D` and `lsbBit D` are the bits of a byte
string with the highest or the lowest bit of a byte first, followed by zeros without end;
`msbNum s c n` and `lsbNum s c n` are the numbers that the `n` bits from `c` on spell, the first
bit the highest or the lowest one.

* `testBit_msbNum`, `testBit_lsbNum` — the bits of such a number;
* `msbNum_add` — a number read in two parts.
-/

namespace Ps5Upload.Bits

open ByteFile

/-- The `k`-th bit, the highest bit of a byte first. -/
def msbBit (d : Bytes) (k : Nat) : Bool := (d.getD (k / 8) 0).toNat.testBit (7 - k % 8)

/-- The `k`-th bit, the lowest bit of a byte first. -/
def lsbBit (d : Bytes) (k : Nat) : Bool := (d.getD (k / 8) 0).toNat.testBit (k % 8)

/-- The number of the `n` bits from `c` on, the first one the highest. -/
def msbNum (s : Nat → Bool) (c : Nat) : Nat → Nat
  | 0 => 0
  | n + 1 => 2 * msbNum s c n + (s (c + n)).toNat

/-- The number of the `n` bits from `c` on, the first one the lowest. -/
def lsbNum (s : Nat → Bool) (c : Nat) : Nat → Nat
  | 0 => 0
  | n + 1 => (s c).toNat + 2 * lsbNum s (c + 1) n

theorem msbNum_lt (s : Nat → Bool) (c n : Nat) : msbNum s c n < 2 ^ n := by
  induction n with
  | zero => exact Nat.one_pos
  | succ n ih =>
    rw [msbNum, Nat.pow_succ]
    have := Bool.toNat_lt (s (c + n))
    omega

theorem testBit_msbNum (s : Nat → Bool) (c n i : Nat) :
    (msbNum s c n).testBit i = (decide (i < n) && s (c + (n - 1 - i))) := by
  induction n generalizing i with
  | zero => simp [msbNum]
  | succ n ih =>
    rw [msbNum]
    cases i with
    | zero => cases h : s (c + n) <;> simp [h]
    | succ i =>
      have hdiv : (2 * msbNum s c n + (s (c + n)).toNat) / 2 = msbNum s c n := by
        have := Bool.toNat_lt (s (c + n))
        omega
      rw [Nat.testBit_succ, hdiv, ih, show n + 1 - 1 - (i + 1) = n - 1 - i by omega]
      simp

theorem msbNum_add (s : Nat → Bool) (c m n : Nat) :
    msbNum s c (m + n) = msbNum s c m * 2 ^ n + msbNum s (c + m) n := by
  induction n with
  | zero => simp [msbNum]
  | succ n ih =>
    rw [← Nat.add_assoc, msbNum, msbNum, ih, Nat.pow_succ, Nat.add_assoc c]
    ring

/-- A number is that of its own bits. -/
theorem msbNum_eq {s : Nat → Bool} {c n v : Nat} (hv : v < 2 ^ n)
    (h : ∀ j < n, s (c + j) = v.testBit (n - 1 - j)) : msbNum s c n = v := by
  refine Nat.eq_of_testBit_eq fun i => ?_
  rw [testBit_msbNum]
  by_cases hi : i < n
  · rw [h _ (by omega), show n - 1 - (n - 1 - i) = i by omega]
    simp [hi]
  · rw [Nat.testBit_lt_two_pow (Nat.lt_of_lt_of_le hv (Nat.pow_le_pow_right (by omega) (by omega)))]
    simp [hi]

/-- A first bit makes a number large. -/
theorem le_msbNum {s : Nat → Bool} {c : Nat} (h : s c = true) (n : Nat) :
    2 ^ n ≤ msbNum s c (n + 1) := by
  apply Nat.ge_two_pow_of_testBit
  rw [testBit_msbNum]
  simp [h]

theorem lsbNum_lt (s : Nat → Bool) (c n : Nat) : lsbNum s c n < 2 ^ n := by
  induction n generalizing c with
  | zero => exact Nat.one_pos
  | succ n ih =>
    rw [lsbNum, Nat.pow_succ]
    have := Bool.toNat_lt (s c)
    have := ih (c + 1)
    omega

theorem testBit_lsbNum (s : Nat → Bool) (c n i : Nat) :
    (lsbNum s c n).testBit i = (decide (i < n) && s (c + i)) := by
  induction n generalizing c i with
  | zero => simp [lsbNum]
  | succ n ih =>
    rw [lsbNum]
    cases i with
    | zero => cases s c <;> simp
    | succ i =>
      have hdiv : ((s c).toNat + 2 * lsbNum s (c + 1) n) / 2 = lsbNum s (c + 1) n := by
        have := Bool.toNat_lt (s c)
        omega
      rw [Nat.testBit_succ, hdiv, ih, show c + 1 + i = c + (i + 1) by omega]
      simp

/-! ## Registers -/

/-- The number of zero bits above the highest one in a `w`-bit register. -/
def leadingZeros (w x : Nat) : Nat := if x = 0 then w else w - 1 - x.log2

/-- The highest bit of a register that has one. -/
theorem leadingZeros_spec {w x : Nat} (hx : x < 2 ^ w) (h : leadingZeros w x < w) :
    2 ^ (w - 1 - leadingZeros w x) ≤ x ∧ x < 2 ^ (w - leadingZeros w x) := by
  unfold leadingZeros at h ⊢
  split at h
  · omega
  · rename_i hne
    rw [if_neg hne]
    have hlog : x.log2 < w := (Nat.log2_lt hne).2 hx
    refine ⟨?_, ?_⟩
    · rw [show w - 1 - (w - 1 - x.log2) = x.log2 by omega]
      exact Nat.log2_self_le hne
    · rw [show w - (w - 1 - x.log2) = x.log2 + 1 by omega]
      exact Nat.lt_log2_self

/-- The leading zeros of a register from its bits. -/
theorem leadingZeros_eq {w x z : Nat} (hz : z < w) (hlo : 2 ^ (w - 1 - z) ≤ x)
    (hhi : x < 2 ^ (w - z)) : leadingZeros w x = z := by
  have hne : x ≠ 0 := by
    have := Nat.two_pow_pos (w - 1 - z)
    omega
  have h₁ : w - 1 - z ≤ x.log2 := (Nat.le_log2 hne).2 hlo
  have h₂ : x.log2 < w - z := (Nat.log2_lt hne).2 hhi
  rw [leadingZeros, if_neg hne]
  omega

end Ps5Upload.Bits
