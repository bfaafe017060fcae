import Ps5Upload.Fpkg.Kraken.BitReader

/-!
# Kraken: the bit writer

The `BitWriter` of `ps5upload-fpkg/src/kraken.rs`: bits go into a 64-bit register, the first one the highest,
and whole bytes leave it.
-/

namespace Ps5Upload.Kraken

open ByteFile Bits Checked

structure BitWriter where
  bytes : Bytes := []
  acc : Nat := 0
  n : Nat := 0

namespace BitWriter

/-- The loop that takes whole bytes out of the register. -/
def flushFor : Nat → BitWriter → BitWriter
  | 0, w => w
  | turns + 1, w =>
    if 8 ≤ w.n then
      flushFor turns { w with n := w.n - 8, bytes := w.bytes ++ [UInt8.ofNat (w.acc >>> (w.n - 8))] }
    else w

/-- The low `bits` bits of a number, 32 at most; every turn of the loop takes eight. -/
def put (w : BitWriter) (value bits : Nat) : BitWriter :=
  if bits = 0 then w
  else
    let n := w.n + bits
    flushFor n { w with acc := (w.acc <<< bits) % 2 ^ 64 ||| value % 2 ^ bits, n := n }

def finish (w : BitWriter) : Bytes :=
  if 0 < w.n then w.bytes ++ [UInt8.ofNat (w.acc <<< (8 - w.n))] else w.bytes

end BitWriter

/-! ## What has been written -/

/-- The low `n` bits of a number, the highest first. -/
def msb (v n : Nat) : List Bool := (List.range n).map fun i => v.testBit (n - 1 - i)

@[simp] theorem length_msb (v n : Nat) : (msb v n).length = n := by
  rw [msb, List.length_map, List.length_range]

theorem getD_msb {v n i : Nat} (hi : i < n) : (msb v n).getD i false = v.testBit (n - 1 - i) := by
  rw [msb, List.getD_eq_getElem?_getD, List.getElem?_map, List.getElem?_range hi]
  rfl

/-- The bytes and the register of a writer hold `bs`. -/
structure Pending (w : BitWriter) (bs : List Bool) : Prop where
  length : bs.length = 8 * w.bytes.length + w.n
  byte : ∀ k < 8 * w.bytes.length, msbBit w.bytes k = bs.getD k false
  bit : ∀ i < w.n, w.acc.testBit (w.n - 1 - i) = bs.getD (8 * w.bytes.length + i) false

/-- A writer between two writes. -/
def Wrote (w : BitWriter) (bs : List Bool) : Prop := Pending w bs ∧ w.n < 8

variable {w : BitWriter} {bs : List Bool}

theorem wrote_empty : Wrote {} [] :=
  ⟨⟨rfl, fun k hk => absurd hk (Nat.not_lt_zero k), fun i hi => absurd hi (Nat.not_lt_zero i)⟩, by decide⟩

/-- One bit more of a byte behind others. -/
theorem msbBit_concat (d : Bytes) (b : UInt8) (k : Nat) : msbBit (d ++ [b]) k =
    if k < 8 * d.length then msbBit d k else if k < 8 * d.length + 8 then b.toNat.testBit (7 - k % 8) else false := by
  rw [msbBit, msbBit]
  by_cases h₁ : k < 8 * d.length
  · rw [if_pos h₁, List.getD_append _ _ _ _ (by omega)]
  · rw [if_neg h₁]
    by_cases h₂ : k < 8 * d.length + 8
    · have hk : k / 8 = d.length := by omega
      rw [if_pos h₂, hk, List.getD_eq_getElem?_getD, List.getElem?_concat_length]
      rfl
    · rw [if_neg h₂, List.getD_eq_default _ _ (by rw [List.length_append]; simp; omega)]
      exact Nat.zero_testBit _

theorem flushFor_pending : ∀ (turns : Nat) {w : BitWriter}, Pending w bs → w.n < 8 * (turns + 1) →
    Wrote (BitWriter.flushFor turns w) bs := by
  intro turns
  induction turns with
  | zero => exact fun h hn => ⟨h, hn⟩
  | succ turns ih =>
    intro w h hn
    rw [BitWriter.flushFor]
    split
    · rename_i h8
      have hlen : (w.bytes ++ [UInt8.ofNat (w.acc >>> (w.n - 8))]).length = w.bytes.length + 1 := List.length_append
      have hlength := h.length
      refine ih ⟨?_, fun k hk => ?_, fun i hi => ?_⟩ (by dsimp only; omega)
      · dsimp only
        omega
      · dsimp only at hk ⊢
        rw [msbBit_concat]
        by_cases hold : k < 8 * w.bytes.length
        · rw [if_pos hold, h.byte k hold]
        · have hbit := h.bit (k % 8) (by omega)
          rw [if_neg hold, if_pos (by omega), UInt8.toNat_ofNat', Nat.testBit_mod_two_pow, decide_eq_true (by omega),
            Bool.true_and, Nat.testBit_shiftRight]
          have h₁ : w.n - 8 + (7 - k % 8) = w.n - 1 - k % 8 := by omega
          have h₂ : 8 * w.bytes.length + k % 8 = k := by omega
          rw [h₁, hbit, h₂]
      · dsimp only at hi ⊢
        have hbit := h.bit (i + 8) (by omega)
        have h₁ : w.n - 1 - (i + 8) = w.n - 8 - 1 - i := by omega
        have h₂ : 8 * w.bytes.length + (i + 8) = 8 * (w.bytes ++ [UInt8.ofNat (w.acc >>> (w.n - 8))]).length + i := by
          omega
        rw [h₁, h₂] at hbit
        exact hbit
    · exact ⟨h, by omega⟩

/-- **A write appends its bits.** -/
theorem put_wrote (h : Wrote w bs) {bits : Nat} (hbits : bits ≤ 32) (v : Nat) :
    Wrote (w.put v bits) (bs ++ msb v bits) := by
  rw [BitWriter.put]
  by_cases hzero : bits = 0
  · subst hzero
    rw [if_pos rfl]
    exact (List.append_nil bs).symm ▸ h
  · rw [if_neg hzero]
    obtain ⟨h, hn⟩ := h
    have hlength := h.length
    refine flushFor_pending _ ⟨?_, fun k hk => ?_, fun i hi => ?_⟩ (by dsimp only; omega)
    · rw [List.length_append, length_msb]
      dsimp only
      omega
    · dsimp only at hk ⊢
      rw [List.getD_append _ _ _ _ (by omega), h.byte k hk]
    · dsimp only at hi ⊢
      rw [Nat.testBit_or, Nat.testBit_mod_two_pow, Nat.testBit_mod_two_pow, Nat.testBit_shiftLeft]
      by_cases hold : i < w.n
      · have hbit := h.bit i hold
        have h₁ : w.n + bits - 1 - i - bits = w.n - 1 - i := by omega
        rw [List.getD_append _ _ _ _ (by omega), ← hbit, h₁, decide_eq_true (by omega), decide_eq_true (by omega),
          decide_eq_false (by omega), Bool.true_and, Bool.true_and, Bool.false_and, Bool.or_false]
      · have h₁ : 8 * w.bytes.length + i - bs.length = i - w.n := by omega
        have h₂ : w.n + bits - 1 - i = bits - 1 - (i - w.n) := by omega
        rw [List.getD_append_right _ _ _ _ (by omega), h₁, getD_msb (by omega), h₂, decide_eq_true (by omega),
          Bool.true_and, decide_eq_false (by omega), Bool.false_and, Bool.false_or, decide_eq_true (by omega),
          Bool.true_and]

/-- **The bytes at the end hold all bits, then zeros.** -/
theorem finish_wrote (h : Wrote w bs) :
    w.finish.length = (bs.length + 7) / 8 ∧ ∀ k, msbBit w.finish k = bs.getD k false := by
  obtain ⟨h, hn⟩ := h
  have hlength := h.length
  rw [BitWriter.finish]
  split
  · rename_i hpos
    refine ⟨?_, fun k => ?_⟩
    · rw [List.length_append, List.length_singleton]
      omega
    · rw [msbBit_concat]
      by_cases hold : k < 8 * w.bytes.length
      · rw [if_pos hold, h.byte k hold]
      · rw [if_neg hold]
        by_cases hin : k < bs.length
        · have hbit := h.bit (k % 8) (by omega)
          have h₁ : 7 - k % 8 - (8 - w.n) = w.n - 1 - k % 8 := by omega
          have h₂ : 8 * w.bytes.length + k % 8 = k := by omega
          rw [if_pos (by omega), UInt8.toNat_ofNat', Nat.testBit_mod_two_pow, Nat.testBit_shiftLeft, h₁, hbit, h₂,
            decide_eq_true (by omega), decide_eq_true (by omega), Bool.true_and, Bool.true_and]
        · rw [List.getD_eq_default _ _ (by omega)]
          split
          · rw [UInt8.toNat_ofNat', Nat.testBit_mod_two_pow, Nat.testBit_shiftLeft, decide_eq_true (by omega),
              decide_eq_false (by omega), Bool.false_and, Bool.and_false]
          · rfl
  · rename_i hzero
    refine ⟨by omega, fun k => ?_⟩
    by_cases hold : k < 8 * w.bytes.length
    · exact h.byte k hold
    · rw [List.getD_eq_default _ _ (by omega), msbBit, List.getD_eq_default _ _ (by omega)]
      exact Nat.zero_testBit _

/-! ## Reading it back -/

/-- The bits from `c` on begin with `bs`. -/
def Spells (bit : Nat → Bool) (c : Nat) (bs : List Bool) : Prop := ∀ i < bs.length, bit (c + i) = bs.getD i false

theorem spells_append {bit : Nat → Bool} {c : Nat} {as bs : List Bool} :
    Spells bit c (as ++ bs) ↔ Spells bit c as ∧ Spells bit (c + as.length) bs := by
  constructor
  · intro h
    refine ⟨fun i hi => ?_, fun i hi => ?_⟩
    · rw [h i (by rw [List.length_append]; omega), List.getD_append _ _ _ _ hi]
    · rw [Nat.add_assoc, h (as.length + i) (by rw [List.length_append]; omega),
        List.getD_append_right _ _ _ _ (Nat.le_add_right _ _), Nat.add_sub_cancel_left]
  · rintro ⟨has, hbs⟩ i hi
    rw [List.length_append] at hi
    by_cases h : i < as.length
    · rw [List.getD_append _ _ _ _ h, has i h]
    · have hb := hbs (i - as.length) (by omega)
      rw [Nat.add_assoc, Nat.add_sub_cancel' (by omega)] at hb
      rw [List.getD_append_right _ _ _ _ (by omega), hb]

theorem spells_msb {bit : Nat → Bool} {c v n : Nat} (h : Spells bit c (msb v n)) (hv : v < 2 ^ n) :
    msbNum bit c n = v :=
  msbNum_eq hv fun j hj => by rw [h j (by rw [length_msb]; exact hj), getD_msb hj]

/-- A number in a field that is too wide for it. -/
theorem msb_wide {v n : Nat} (hv : v < 2 ^ n) (k : Nat) : msb v (k + n) = msb 0 k ++ msb v n := by
  refine List.ext_getElem (by rw [length_msb, List.length_append, length_msb, length_msb]) fun i h₁ h₂ => ?_
  rw [length_msb] at h₁
  have hget : ∀ (l : List Bool) (h : i < l.length), l[i] = l.getD i false := fun l h =>
    (List.getD_eq_getElem l false h).symm
  rw [hget, hget, getD_msb h₁]
  by_cases hi : i < k
  · rw [List.getD_append _ _ _ _ (by rw [length_msb]; exact hi), getD_msb hi, Nat.zero_testBit,
      Nat.testBit_lt_two_pow (Nat.lt_of_lt_of_le hv (Nat.pow_le_pow_right (by decide) (by omega)))]
  · rw [List.getD_append_right _ _ _ _ (by rw [length_msb]; omega), length_msb, getD_msb (by omega)]
    congr 1
    omega

variable {t : Stretch} {c : Nat} {r : BitReader}

/-- **A number that was written is read.** -/
theorem get_msb (h : Reads t c r) (hb : t.back = false) {v n : Nat} (hn : n ≤ 32) (hv : v < 2 ^ n)
    (hbits : Spells t.bit c (msb v n)) : ∃ r', r.get n = .ok (v, r') ∧ Reads t (c + n) r' := by
  obtain ⟨r', hr', h'⟩ := get_spec h hn fun hback => absurd hback (by rw [hb]; exact Bool.false_ne_true)
  rw [spells_msb hbits hv] at hr'
  exact ⟨r', hr', h'⟩

/-- **Zeros and a one.** -/
theorem zeros_one (h : Reads t c r) {z : Nat} (hz : z < 24) {rest : List Bool}
    (hbits : Spells t.bit c (msb 0 z ++ true :: rest)) : leadingZeros 32 r.bits = z := by
  obtain ⟨hzeros, hone⟩ := spells_append.1 hbits
  rw [length_msb] at hone
  refine (h.leadingZeros_iff hz).2 ⟨hone 0 (Nat.zero_lt_succ _), fun j hj => ?_⟩
  rw [hzeros j (by rw [length_msb]; exact hj), getD_msb hj, Nat.zero_testBit]

end Ps5Upload.Kraken
