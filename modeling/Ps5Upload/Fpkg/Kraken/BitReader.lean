import Ps5Upload.Lib.Bits
import Ps5Upload.Lib.Checked

/-!
# Kraken: the bit reader

The `BitReader` of `ps5upload-fpkg/src/kraken.rs`, with every index, subtraction and shift checked.
It keeps the next 24 to 31 bits of a stretch of the source in a 32-bit register and reads zeros past
the end of the stretch; a backward reader takes the bytes of the stretch from its end.

`Over` says what a reader holds after `c` bits: the register has the bits from `c` on of the
stretch, as many as are left of the bytes it has fetched.
-/

namespace Ps5Upload.Kraken

open ByteFile Bits Checked

/-- What the decoder returns: bytes, or the text of a format error. -/
abbrev Res (α : Type) := Checked.Res String α

structure BitReader where
  src : Bytes
  pos : Int
  end_ : Int
  back : Bool
  bits : Nat
  bitpos : Int
  deriving DecidableEq, Repr

namespace BitReader

/-- `src[i as usize]`. -/
def byteAt (src : Bytes) (i : Int) : Res UInt8 := if 0 ≤ i then index src i.toNat else panic

/-- The next byte and the position after it; zero past the end of the stretch. -/
def nextByte (r : BitReader) : Res (UInt8 × Int) :=
  if r.back then do
    let pos ← isub 64 r.pos 1
    if r.end_ ≤ pos then do
      let b ← byteAt r.src pos
      return (b, pos)
    else return (0, pos)
  else if r.pos < r.end_ then do
    let b ← byteAt r.src r.pos
    return (b, r.pos + 1)
  else return (0, r.pos + 1)

/-- One turn of `refill`. -/
def fetch (r : BitReader) : Res BitReader := do
  let (byte, pos) ← r.nextByte
  let x ← shl 32 byte.toNat r.bitpos.toNat
  let bitpos ← isub 32 r.bitpos 8
  return { r with pos := pos, bits := r.bits ||| x, bitpos := bitpos }

def refillFor : Nat → BitReader → Res BitReader
  | 0, r => return r
  | turns + 1, r =>
    if 0 < r.bitpos then do
      let r ← r.fetch
      refillFor turns r
    else return r

/-- Every turn takes eight from a `bitpos` above zero. -/
def refill (r : BitReader) : Res BitReader := refillFor r.bitpos.toNat r

def new (src : Bytes) (start stop : Nat) (back : Bool) : Res BitReader :=
  refill
    { src := src
      pos := if back then stop else start
      end_ := if back then start else stop
      back := back
      bits := 0
      bitpos := 24 }

def getFor : Nat → BitReader → Nat → Nat → Res (Nat × BitReader)
  | 0, r, _, v => return (v, r)
  | turns + 1, r, left, v =>
    if 0 < left then do
      let take := min left 24
      let k ← sub 32 take
      let x ← shr 32 r.bits k
      let bits ← shl 32 r.bits take
      let r ← refill { r with bits := bits, bitpos := r.bitpos + take }
      let v ← shl 32 v take
      let left ← sub left take
      getFor turns r left (v ||| x)
    else return (v, r)

/-- The next `n` bits. -/
def get (r : BitReader) (n : Nat) : Res (Nat × BitReader) :=
  if n = 0 then return (0, r) else getFor n r n 0

def getLength (r : BitReader) : Res (Nat × BitReader) :=
  let zeros := leadingZeros 32 r.bits
  if 12 < zeros then fail "kraken: bad length code"
  else do
    let (_, r) ← r.get zeros
    let (v, r) ← r.get (zeros + 7)
    let d ← sub v 64
    return (d, r)

/-- Where the reader stands in the buffer, counting whole bytes consumed. -/
def seam (r : BitReader) : Res Int :=
  let pending := ((24 - r.bitpos) / 8).toNat
  if r.back then return r.pos + pending else isub 64 r.pos pending

end BitReader

/-! ## What a reader holds -/

/-- A stretch of a source, and from which end it is read. -/
structure Stretch where
  src : Bytes
  start : Nat
  stop : Nat
  back : Bool
  start_le : start ≤ stop
  stop_le : stop ≤ src.length

namespace Stretch

variable (t : Stretch)

/-- The bytes in the order a reader takes them. -/
def bytes : Bytes :=
  if t.back then ((t.src.drop t.start).take (t.stop - t.start)).reverse
  else (t.src.drop t.start).take (t.stop - t.start)

theorem length_bytes : t.bytes.length = t.stop - t.start := by
  have := t.stop_le
  unfold bytes
  split
  · rw [List.length_reverse, List.length_take, List.length_drop]
    omega
  · rw [List.length_take, List.length_drop]
    omega

theorem getElem?_src {m : Nat} (hm : m < t.stop - t.start) :
    t.src[if t.back then t.stop - 1 - m else t.start + m]? = some (t.bytes.getD m 0) := by
  have hle := t.start_le
  have hstop := t.stop_le
  have hlen : ((t.src.drop t.start).take (t.stop - t.start)).length = t.stop - t.start := by
    rw [List.length_take, List.length_drop]
    omega
  unfold bytes
  split
  · rw [List.getD_eq_getElem?_getD, List.getElem?_reverse (by omega), hlen,
      List.getElem?_take_of_lt (by omega), List.getElem?_drop,
      show t.start + (t.stop - t.start - 1 - m) = t.stop - 1 - m by omega,
      List.getElem?_eq_getElem (by omega)]
    rfl
  · rw [List.getD_eq_getElem?_getD, List.getElem?_take_of_lt hm, List.getElem?_drop,
      List.getElem?_eq_getElem (by omega)]
    rfl

theorem getD_past {m : Nat} (hm : t.stop - t.start ≤ m) : t.bytes.getD m 0 = 0 := by
  rw [List.getD_eq_getElem?_getD, List.getElem?_eq_none (by rw [length_bytes]; exact hm)]
  rfl

/-- The bits of the stretch, then zeros. -/
def bit (k : Nat) : Bool := msbBit t.bytes k

end Stretch

/-- A reader of a stretch that has consumed `c` bits and has `valid` more in its register, out of the
`m` bytes it has fetched. -/
structure Over (t : Stretch) (c valid : Nat) (r : BitReader) : Prop where
  src : r.src = t.src
  back : r.back = t.back
  end_ : r.end_ = if t.back then (t.start : Int) else t.stop
  pos : ∃ m : Nat, 8 * m = c + valid ∧
    r.pos = if t.back then (t.stop : Int) - m else (t.start : Int) + m
  bitpos : r.bitpos = 24 - (valid : Int)
  valid_le : valid ≤ 31
  bits_lt : r.bits < 2 ^ 32
  bit : ∀ j < 32, r.bits.testBit (31 - j) = (decide (j < valid) && t.bit (c + j))

/-- A reader between two reads. -/
def Reads (t : Stretch) (c : Nat) (r : BitReader) : Prop := ∃ valid, 24 ≤ valid ∧ Over t c valid r

variable {t : Stretch} {c valid : Nat} {r : BitReader}

theorem nextByte_spec {m : Nat} (h : Over t c valid r) (hm : 8 * m = c + valid)
    (hpos : r.pos = if t.back then (t.stop : Int) - m else (t.start : Int) + m)
    (hc : t.back = true → c < 2 ^ 60) :
    r.nextByte = .ok (t.bytes.getD m 0,
      if t.back then (t.stop : Int) - (m + 1 : Nat) else (t.start : Int) + (m + 1 : Nat)) := by
  have hle := t.start_le
  have hstop := t.stop_le
  have hv := h.valid_le
  have hread := t.getElem?_src (m := m)
  rw [BitReader.nextByte, h.back, h.end_, h.src, hpos]
  cases hb : t.back with
  | true =>
    have hc := hc hb
    simp only [hb, if_true] at hread ⊢
    rw [isub_eq (by omega)]
    simp only [bind, Except.bind, BitReader.byteAt]
    by_cases hin : m < t.stop - t.start
    · rw [if_pos (by omega), if_pos (by omega), show ((t.stop : Int) - m - (1 : Nat)).toNat =
        t.stop - 1 - m by omega, index_eq (hread hin)]
      simp only [pure, Except.pure]
      congr 2
      omega
    · rw [if_neg (by omega), t.getD_past (by omega)]
      simp only [pure, Except.pure]
      congr 2
      omega
  | false =>
    simp only [hb, Bool.false_eq_true, if_false] at hread ⊢
    by_cases hin : m < t.stop - t.start
    · rw [if_pos (by omega), BitReader.byteAt, if_pos (by omega),
        show ((t.start : Int) + m).toNat = t.start + m by omega, index_eq (hread hin)]
      simp only [bind, Except.bind, pure, Except.pure]
      congr 2
    · rw [if_neg (by omega), t.getD_past (by omega)]
      simp only [pure, Except.pure]
      congr 2

/-- A byte above the bits the register has. -/
theorem testBit_fetch {b j m : Nat} {d : Bytes} (hb : b = (d.getD m 0).toNat) (hm : 8 * m = c + valid)
    (hv : valid < 24) (hj : j < 32) :
    ((b <<< (24 - valid)) % 2 ^ 32).testBit (31 - j) =
      (decide (valid ≤ j ∧ j < valid + 8) && msbBit d (c + j)) := by
  have hlt : b < 2 ^ 8 := hb ▸ (d.getD m 0).toNat_lt
  rw [Nat.testBit_mod_two_pow, Nat.testBit_shiftLeft]
  simp only [show 31 - j < 32 by omega, decide_true, Bool.true_and]
  by_cases hlow : valid ≤ j
  · by_cases hhigh : j < valid + 8
    · have hbit : msbBit d (c + j) = b.testBit (7 - (j - valid)) := by
        rw [msbBit, hb, show (c + j) / 8 = m by omega, show (c + j) % 8 = j - valid by omega]
      rw [hbit, show 31 - j - (24 - valid) = 7 - (j - valid) by omega]
      simp [hlow, hhigh]
      omega
    · rw [decide_eq_false (by omega : ¬ (31 - j ≥ 24 - valid)),
        decide_eq_false (by omega : ¬ (valid ≤ j ∧ j < valid + 8))]
      rfl
  · rw [Nat.testBit_lt_two_pow (Nat.lt_of_lt_of_le hlt
      (Nat.pow_le_pow_right (by omega) (by omega : 8 ≤ 31 - j - (24 - valid)))),
      decide_eq_false (by omega : ¬ (valid ≤ j ∧ j < valid + 8))]
    simp

theorem fetch_spec (h : Over t c valid r) (hv : valid < 24) (hc : t.back = true → c < 2 ^ 60) :
    ∃ r', r.fetch = .ok r' ∧ Over t c (valid + 8) r' := by
  obtain ⟨m, hm, hpos⟩ := h.pos
  have hnat : r.bitpos.toNat = 24 - valid := by rw [h.bitpos]; omega
  have hfetch : r.fetch = .ok
      { r with
        pos := if t.back then (t.stop : Int) - (m + 1 : Nat) else (t.start : Int) + (m + 1 : Nat)
        bits := r.bits ||| (((t.bytes.getD m 0).toNat <<< (24 - valid)) % 2 ^ 32)
        bitpos := r.bitpos - (8 : Nat) } := by
    rw [BitReader.fetch, nextByte_spec h hm hpos hc]
    simp only [bind, Except.bind]
    rw [shl_eq (by omega), isub_eq (by rw [h.bitpos]; omega), hnat]
    rfl
  refine ⟨_, hfetch, h.src, h.back, h.end_, ⟨m + 1, by omega, rfl⟩, ?_, by omega, ?_,
    fun j hj => ?_⟩
  · show r.bitpos - (8 : Nat) = _
    rw [h.bitpos]
    omega
  · exact Nat.or_lt_two_pow h.bits_lt (Nat.mod_lt _ (by decide))
  · show (r.bits ||| _).testBit _ = _
    rw [Nat.testBit_or, h.bit j hj, testBit_fetch rfl hm hv hj, Stretch.bit]
    by_cases h₁ : j < valid
    · simp [h₁, show j < valid + 8 by omega, show ¬ valid ≤ j by omega]
    · by_cases h₂ : j < valid + 8
      · simp [h₁, h₂, show valid ≤ j by omega]
      · simp [h₁, h₂]

theorem refillFor_spec (turns : Nat) (h : Over t c valid r) (hc : t.back = true → c < 2 ^ 60)
    (ht : r.bitpos.toNat ≤ turns) : ∃ r', BitReader.refillFor turns r = .ok r' ∧ Reads t c r' := by
  induction turns generalizing valid r with
  | zero =>
    have := h.bitpos
    exact ⟨r, rfl, valid, by omega, h⟩
  | succ turns ih =>
    have hbp := h.bitpos
    by_cases hpos : 0 < r.bitpos
    · obtain ⟨r₁, hr₁, h₁⟩ := fetch_spec h (by omega) hc
      have := h₁.bitpos
      obtain ⟨r', hr', h'⟩ := ih h₁ (by omega)
      refine ⟨r', ?_, h'⟩
      rw [BitReader.refillFor, if_pos hpos, hr₁]
      exact hr'
    · refine ⟨r, ?_, valid, by omega, h⟩
      rw [BitReader.refillFor, if_neg hpos]
      rfl

theorem refill_spec (h : Over t c valid r) (hc : t.back = true → c < 2 ^ 60) :
    ∃ r', r.refill = .ok r' ∧ Reads t c r' := refillFor_spec _ h hc (Nat.le_refl _)

theorem new_spec (t : Stretch) :
    ∃ r, BitReader.new t.src t.start t.stop t.back = .ok r ∧ Reads t 0 r := by
  have hempty : Over t 0 0
      { src := t.src
        pos := if t.back then t.stop else t.start
        end_ := if t.back then t.start else t.stop
        back := t.back
        bits := 0
        bitpos := 24 } := by
    refine ⟨rfl, rfl, rfl, ⟨0, rfl, ?_⟩, rfl, by omega, Nat.two_pow_pos 32, ?_⟩
    · simp
    · intro j _
      simp
  exact refill_spec hempty fun _ => by decide

/-! ## Reading -/

theorem Reads.shiftRight (h : Reads t c r) {n : Nat} (hn : n ≤ 24) :
    r.bits >>> (32 - n) = msbNum t.bit c n := by
  obtain ⟨valid, hv, h⟩ := h
  refine Nat.eq_of_testBit_eq fun i => ?_
  rw [Nat.testBit_shiftRight, testBit_msbNum]
  by_cases hi : i < n
  · have := h.bit (n - 1 - i) (by omega)
    rw [show 31 - (n - 1 - i) = 32 - n + i by omega] at this
    rw [this]
    simp [hi, show n - 1 - i < valid by omega]
  · rw [Nat.testBit_lt_two_pow (Nat.lt_of_lt_of_le h.bits_lt
      (Nat.pow_le_pow_right (by omega) (by omega)))]
    simp [hi]

/-- The register after `n` bits have left it, before the refill. -/
theorem Reads.consume (h : Reads t c r) {n : Nat} (hn : n ≤ 24) :
    ∃ valid, Over t (c + n) valid
      { r with bits := (r.bits <<< n) % 2 ^ 32, bitpos := r.bitpos + (n : Nat) } := by
  obtain ⟨valid, hv, h⟩ := h
  obtain ⟨m, hm, hpos⟩ := h.pos
  have hle := h.valid_le
  refine ⟨valid - n, h.src, h.back, h.end_, ⟨m, by omega, hpos⟩, ?_, by omega,
    Nat.mod_lt _ (by decide), fun j hj => ?_⟩
  · show r.bitpos + (n : Int) = _
    rw [h.bitpos]
    omega
  · show ((r.bits <<< n) % 2 ^ 32).testBit (31 - j) = _
    rw [Nat.testBit_mod_two_pow, Nat.testBit_shiftLeft]
    by_cases hin : j + n < 32
    · have := h.bit (j + n) hin
      rw [show 31 - (j + n) = 31 - j - n by omega] at this
      rw [this, show c + (j + n) = c + n + j by omega]
      simp [show 31 - j < 32 by omega, show n ≤ 31 - j by omega,
        show j + n < valid ↔ j < valid - n by omega]
    · simp [show ¬ n ≤ 31 - j by omega, show ¬ j < valid - n by omega]

theorem shl_or {v w n : Nat} (hv : v < 2 ^ (32 - n)) (hn : n ≤ 32) (hw : w < 2 ^ n) :
    (v <<< n) % 2 ^ 32 ||| w = v * 2 ^ n + w := by
  have hlt : v * 2 ^ n < 2 ^ 32 := by
    calc v * 2 ^ n < 2 ^ (32 - n) * 2 ^ n := (Nat.mul_lt_mul_right (Nat.two_pow_pos n)).2 hv
      _ = 2 ^ 32 := by rw [← Nat.pow_add]; congr 1; omega
  rw [Nat.shiftLeft_eq, Nat.mod_eq_of_lt hlt, ← Nat.shiftLeft_eq, ← Nat.shiftLeft_add_eq_or_of_lt hw,
    Nat.shiftLeft_eq]

theorem getFor_spec {turns left v : Nat} (h : Reads t c r) (ht : left ≤ turns) (hleft : left ≤ 32)
    (hv : v < 2 ^ (32 - left)) (hc : t.back = true → c + left < 2 ^ 60) :
    ∃ r', BitReader.getFor turns r left v = .ok (v * 2 ^ left + msbNum t.bit c left, r') ∧
      Reads t (c + left) r' := by
  induction turns generalizing c r left v with
  | zero =>
    obtain rfl : left = 0 := by omega
    exact ⟨r, by simp [BitReader.getFor, msbNum, pure, Except.pure], h⟩
  | succ turns ih =>
    by_cases hzero : left = 0
    · subst hzero
      exact ⟨r, by simp [BitReader.getFor, msbNum, pure, Except.pure], h⟩
    · have htake : min left 24 ≤ left := Nat.min_le_left ..
      have htake24 : min left 24 ≤ 24 := Nat.min_le_right ..
      generalize hn : min left 24 = n at htake htake24
      obtain ⟨valid, hover⟩ := h.consume htake24
      obtain ⟨r₁, hr₁, h₁⟩ := refill_spec hover (fun hb => by have := hc hb; omega)
      have hlt := msbNum_lt t.bit c n
      have hpow : 2 ^ (32 - left) * 2 ^ n = 2 ^ (32 - (left - n)) := by
        rw [← Nat.pow_add]
        congr 1
        omega
      have hvn : v < 2 ^ (32 - n) := Nat.lt_of_lt_of_le hv (Nat.pow_le_pow_right (by omega) (by omega))
      have hacc : v * 2 ^ n + msbNum t.bit c n < 2 ^ (32 - (left - n)) := by
        rw [← hpow]
        calc v * 2 ^ n + msbNum t.bit c n < v * 2 ^ n + 2 ^ n := by omega
          _ = (v + 1) * 2 ^ n := by ring
          _ ≤ 2 ^ (32 - left) * 2 ^ n := Nat.mul_le_mul_right _ hv
      obtain ⟨r', hr', h'⟩ := ih h₁ (by omega) (by omega) hacc (fun hb => by have := hc hb; omega)
      refine ⟨r', ?_, ?_⟩
      · rw [BitReader.getFor, if_pos (by omega)]
        simp only [hn]
        rw [sub_eq (by omega)]
        simp only [bind, Except.bind]
        rw [shr_eq (by omega)]
        simp only
        rw [shl_eq (by omega)]
        simp only [hr₁]
        rw [shl_eq (by omega), sub_eq htake]
        simp only
        rw [h.shiftRight htake24, shl_or hvn (by omega) hlt, hr']
        have hsplit := msbNum_add t.bit c n (left - n)
        rw [show n + (left - n) = left by omega] at hsplit
        have hpow' : 2 ^ left = 2 ^ n * 2 ^ (left - n) := by
          rw [← Nat.pow_add]
          congr 1
          omega
        rw [hsplit, hpow']
        congr 2
        ring
      · rwa [show c + n + (left - n) = c + left by omega] at h'

/-- **A read returns the number its bits spell.** -/
theorem get_spec {n : Nat} (h : Reads t c r) (hn : n ≤ 32) (hc : t.back = true → c + n < 2 ^ 60) :
    ∃ r', r.get n = .ok (msbNum t.bit c n, r') ∧ Reads t (c + n) r' := by
  rw [BitReader.get]
  split
  · rename_i hzero
    subst hzero
    exact ⟨r, rfl, h⟩
  · have hzero : 0 < 2 ^ (32 - n) := Nat.two_pow_pos _
    obtain ⟨r', hr', h'⟩ := getFor_spec h (Nat.le_refl n) hn hzero hc
    refine ⟨r', ?_, h'⟩
    rw [hr', Nat.zero_mul, Nat.zero_add]

/-- **The seam** is the number of whole bytes the consumed bits take. -/
theorem seam_spec (h : Reads t c r) :
    r.seam = .ok (if t.back then (t.stop : Int) - ((c + 7) / 8 : Nat)
      else (t.start : Int) + ((c + 7) / 8 : Nat)) := by
  obtain ⟨valid, hv, h⟩ := h
  obtain ⟨m, hm, hpos⟩ := h.pos
  have hle := h.valid_le
  have hpend : ((24 - r.bitpos) / 8).toNat = valid / 8 := by
    rw [h.bitpos]
    omega
  rw [BitReader.seam]
  simp only [hpend]
  rw [h.back, hpos]
  cases hb : t.back with
  | true =>
    simp only [if_true, pure, Except.pure]
    congr 1
    omega
  | false =>
    simp only [Bool.false_eq_true, if_false]
    rw [isub_eq (by omega)]
    congr 1
    omega

/-! ## Looking ahead -/

/-- The zeros in front of a register's first bit are those of the stretch. -/
theorem Reads.leadingZeros_iff (h : Reads t c r) {z : Nat} (hz : z < 24) :
    leadingZeros 32 r.bits = z ↔ t.bit (c + z) = true ∧ ∀ j < z, t.bit (c + j) = false := by
  obtain ⟨valid, hv, h⟩ := h
  have hbit : ∀ j ≤ z, r.bits.testBit (31 - j) = t.bit (c + j) := by
    intro j hj
    rw [h.bit j (by omega)]
    simp [show j < valid by omega]
  constructor
  · intro hlz
    obtain ⟨hlo, hhi⟩ := leadingZeros_spec h.bits_lt (by omega)
    rw [hlz] at hlo hhi
    have hfar : ∀ i, 32 - z ≤ i → r.bits.testBit i = false := fun i hi =>
      Nat.testBit_lt_two_pow (Nat.lt_of_lt_of_le hhi (Nat.pow_le_pow_right (by omega) hi))
    refine ⟨?_, fun j hj => ?_⟩
    · rw [← hbit z (Nat.le_refl z)]
      by_contra hnot
      have hlt : r.bits < 2 ^ (31 - z) := Nat.lt_pow_two_of_testBit _ fun i hi => by
        rcases Nat.lt_or_ge i (32 - z) with hlt | hge
        · rw [show i = 31 - z by omega]
          simpa using hnot
        · exact hfar i hge
      have : 32 - 1 - z = 31 - z := by omega
      rw [this] at hlo
      omega
    · rw [← hbit j (by omega)]
      exact hfar _ (by omega)
  · rintro ⟨hone, hzero⟩
    apply leadingZeros_eq (by omega)
    · apply Nat.ge_two_pow_of_testBit
      rw [show 32 - 1 - z = 31 - z by omega, hbit z (Nat.le_refl z)]
      exact hone
    · apply Nat.lt_pow_two_of_testBit
      intro i hi
      by_cases hin : i < 32
      · have := hbit (31 - i) (by omega)
        rw [show 31 - (31 - i) = i by omega] at this
        rw [this]
        exact hzero _ (by omega)
      · exact Nat.testBit_lt_two_pow
          (Nat.lt_of_lt_of_le h.bits_lt (Nat.pow_le_pow_right (by omega) (by omega)))

/-- The value of a length escape with `z` zeros in front. -/
theorem getLength_eq (h : Reads t c r) {z : Nat} (hz : z ≤ 12) (hone : t.bit (c + z) = true)
    (hzero : ∀ j < z, t.bit (c + j) = false) (hc : t.back = true → c + 64 < 2 ^ 60) :
    ∃ r', r.getLength = .ok (msbNum t.bit (c + z) (z + 7) - 64, r') ∧
      Reads t (c + z + (z + 7)) r' := by
  have hlz : leadingZeros 32 r.bits = z := (h.leadingZeros_iff (by omega)).2 ⟨hone, hzero⟩
  obtain ⟨r₁, hr₁, h₁⟩ := get_spec h (n := z) (by omega) fun hb => by have := hc hb; omega
  obtain ⟨r₂, hr₂, h₂⟩ := get_spec h₁ (n := z + 7) (by omega) fun hb => by have := hc hb; omega
  have hbig : 64 ≤ msbNum t.bit (c + z) (z + 7) := by
    calc 64 ≤ 2 ^ (z + 6) := by
          rw [Nat.pow_add]
          have := Nat.two_pow_pos z
          omega
      _ ≤ msbNum t.bit (c + z) (z + 7) := le_msbNum hone (z + 6)
  refine ⟨r₂, ?_, h₂⟩
  rw [BitReader.getLength]
  simp only [hlz]
  rw [if_neg (by omega), hr₁]
  simp only [bind, Except.bind, hr₂]
  rw [sub_eq hbig]
  rfl

/-- **A length escape is refused or read**: in particular the subtraction never fails. -/
theorem getLength_spec (h : Reads t c r) (hc : t.back = true → c + 64 < 2 ^ 60) :
    Safe (fun p => ∃ c', c' ≤ c + 31 ∧ Reads t c' p.2) r.getLength := by
  rcases Nat.lt_or_ge 12 (leadingZeros 32 r.bits) with hlt | hge
  · rw [BitReader.getLength, if_pos hlt]
    exact safe_fail _
  · obtain ⟨hone, hzero⟩ := (h.leadingZeros_iff (by omega)).1 rfl
    obtain ⟨r', hr', h'⟩ := getLength_eq h hge hone hzero hc
    rw [hr']
    exact ⟨_, by omega, h'⟩

end Ps5Upload.Kraken
